import Lorelei.ClangExtras.Spelling
import Lorelei.TLC.CallbackPaths
import Mathlib.Data.List.Sigma

/-!
# Trees and the function pointers of a type

`build` ends on every type. It gives up on a type exactly if the type is unmarshallable,
and otherwise its tree has all function pointers of the type, each once and at its path,
exactly if no two of them are kept under one name in a map (`buildsComplete_iff`).
-/

namespace Lorelei.TLC

open Support SortedMap

variable {getAsString : QualType → Str} {records : List RecordDecl} {fuel : Nat}
  {t t' : QualType} {visited : List Str} {tree : CallbackTree}

/-! ## What one level of build does -/

/-- The callbacks and the children that the fields of a record give, in order. `Built` is
how the tree of a field's type is made, `Skipped` which types are passed over. -/
inductive FieldsBuilt (Built : QualType → CallbackTree → Prop) (Skipped : QualType → Prop) :
    List (String × QualType) → List (String × QualType) → List (String × CallbackTree) → Prop where
  | nil : FieldsBuilt Built Skipped [] [] []
  | callback {name type callee fields callbacks children} (hcallee : type.callee? = some callee)
      (h : FieldsBuilt Built Skipped fields callbacks children) :
      FieldsBuilt Built Skipped ((name, type) :: fields) ((name, callee) :: callbacks) children
  | skipped {name type fields callbacks children} (hcallee : type.callee? = none)
      (hskip : Skipped type) (h : FieldsBuilt Built Skipped fields callbacks children) :
      FieldsBuilt Built Skipped ((name, type) :: fields) callbacks children
  | empty {name type child fields callbacks children} (hcallee : type.callee? = none)
      (hbuilt : Built type child) (hstatus : child.status = .noCallbacks)
      (h : FieldsBuilt Built Skipped fields callbacks children) :
      FieldsBuilt Built Skipped ((name, type) :: fields) callbacks children
  | child {name type child fields callbacks children} (hcallee : type.callee? = none)
      (hbuilt : Built type child) (hstatus : child.status = .hasCallbacks)
      (h : FieldsBuilt Built Skipped fields callbacks children) :
      FieldsBuilt Built Skipped ((name, type) :: fields) callbacks ((name, child) :: children)

/-- The tree of a field's type is made with the type's spelling on the path. -/
def BuiltBy (getAsString : QualType → Str) (mk : QualType → List Str → Option CallbackTree)
    (visited : List Str) (type : QualType) (child : CallbackTree) : Prop :=
  getTypeString getAsString type ∉ visited ∧
    mk type (getTypeString getAsString type :: visited) = some child

/-- A type whose spelling is on the path, and that holds no callback. -/
def SkippedBy (getAsString : QualType → Str) (records : List RecordDecl) (fuel : Nat)
    (visited : List Str) (type : QualType) : Prop :=
  getTypeString getAsString type ∈ visited ∧
    containsFunctionPointer getAsString records fuel type = some false

/-- A field that makes its record unsupported. -/
def Blocks (getAsString : QualType → Str) (records : List RecordDecl)
    (mk : QualType → List Str → Option CallbackTree) (fuel : Nat) (visited : List Str)
    (type : QualType) : Prop :=
  (getTypeString getAsString type ∈ visited ∧
    containsFunctionPointer getAsString records fuel type = some true) ∨
      ∃ child, BuiltBy getAsString mk visited type child ∧ child.status = .unsupported

theorem buildFields_cases {mk : QualType → List Str → Option CallbackTree}
    {fields callbacks : List (String × QualType)} {children : List (String × CallbackTree)}
    {result : Option (List (String × QualType) × List (String × CallbackTree))}
    (h : buildFields getAsString records mk fuel visited fields callbacks children = some result) :
    (result = none ∧ ∃ field ∈ fields, Blocks getAsString records mk fuel visited field.2) ∨
      ∃ callbacks' children', FieldsBuilt (BuiltBy getAsString mk visited)
        (SkippedBy getAsString records fuel visited) fields callbacks' children' ∧
          result = some (insertAll Prod.fst callbacks' callbacks,
            insertAll Prod.fst children' children) := by
  induction fields generalizing callbacks children with
  | nil =>
      cases h
      exact .inr ⟨[], [], .nil, rfl⟩
  | cons field fields ih =>
      obtain ⟨name, type⟩ := field
      -- what is known of the rest, when this field gives the maps `callbacks₁` and `children₁`
      have hrest : ∀ {callbacks₁ children₁}, buildFields getAsString records mk fuel visited fields
          callbacks₁ children₁ = some result →
            (result = none ∧ ∃ field ∈ (name, type) :: fields,
              Blocks getAsString records mk fuel visited field.2) ∨
                ∃ callbacks' children', FieldsBuilt (BuiltBy getAsString mk visited)
                  (SkippedBy getAsString records fuel visited) fields callbacks' children' ∧
                    result = some (insertAll Prod.fst callbacks' callbacks₁,
                      insertAll Prod.fst children' children₁) := by
        intro callbacks₁ children₁ h
        rcases ih h with ⟨hnone, field, hfield, hblocks⟩ | hbuilt
        · exact .inl ⟨hnone, field, List.mem_cons_of_mem _ hfield, hblocks⟩
        · exact .inr hbuilt
      rw [buildFields] at h
      cases hcallee : type.callee? with
      | some callee =>
          rw [hcallee] at h
          rcases hrest h with hnone | ⟨callbacks', children', hbuilt, heq⟩
          · exact .inl hnone
          · exact .inr ⟨_, _, hbuilt.callback hcallee, heq⟩
      | none =>
          rw [hcallee] at h
          dsimp only at h
          split at h
          case isTrue hvisited =>
            obtain ⟨carries, hcarries, h⟩ := Option.bind_eq_some_iff.mp h
            cases carries with
            | true =>
                cases h
                exact .inl ⟨rfl, _, List.mem_cons_self, .inl ⟨hvisited, hcarries⟩⟩
            | false =>
                rcases hrest h with hnone | ⟨callbacks', children', hbuilt, heq⟩
                · exact .inl hnone
                · exact .inr ⟨_, _, hbuilt.skipped hcallee ⟨hvisited, hcarries⟩, heq⟩
          case isFalse hvisited =>
            obtain ⟨child, hchild, h⟩ := Option.bind_eq_some_iff.mp h
            split at h
            next hstatus =>
              cases h
              exact .inl ⟨rfl, _, List.mem_cons_self, .inr ⟨child, ⟨hvisited, hchild⟩, hstatus⟩⟩
            next hstatus =>
              rcases hrest h with hnone | ⟨callbacks', children', hbuilt, heq⟩
              · exact .inl hnone
              · exact .inr ⟨_, _, hbuilt.child hcallee ⟨hvisited, hchild⟩ hstatus, heq⟩
            next hstatus =>
              rcases hrest h with hnone | ⟨callbacks', children', hbuilt, heq⟩
              · exact .inl hnone
              · exact .inr ⟨_, _, hbuilt.empty hcallee ⟨hvisited, hchild⟩ hstatus, heq⟩

/-- One level of `build`. -/
theorem build_cases (h : build getAsString records (fuel + 1) t visited = some tree) :
    (tree.status = .unsupported ∧ (hasUnsupportedShape getAsString records fuel t = some true ∨
      ∃ field ∈ fieldsBehind records t,
        Blocks getAsString records (build getAsString records fuel) fuel visited field.2)) ∨
    (hasUnsupportedShape getAsString records fuel t = some false ∧ ∃ callbacks children,
      FieldsBuilt (BuiltBy getAsString (build getAsString records fuel) visited)
        (SkippedBy getAsString records fuel visited) (fieldsBehind records t) callbacks children ∧
          ((tree = .noCallbacks ∧ callbacks = [] ∧ children = []) ∨
            (callbacks ≠ [] ∨ children ≠ []) ∧ ∃ reach, tree = .node .hasCallbacks reach
              (insertAll Prod.fst callbacks []) (insertAll Prod.fst children []) [])) := by
  rw [build] at h
  obtain ⟨bad, hbad, h⟩ := Option.bind_eq_some_iff.mp h
  cases bad with
  | true =>
      cases h
      exact .inl ⟨rfl, .inl hbad⟩
  | false =>
      rw [if_neg Bool.false_ne_true] at h
      split at h
      case isTrue hrecord =>
        cases h
        have hnone : fieldsBehind records t = [] := by
          refine List.eq_nil_iff_forall_not_mem.mpr fun field hfield => ?_
          rw [isRecordType_of_mem_fieldsOf hfield] at hrecord
          cases hrecord
        refine .inr ⟨hbad, [], [], ?_, .inl ⟨rfl, rfl, rfl⟩⟩
        rw [hnone]
        exact .nil
      case isFalse =>
        obtain ⟨result, hfields, rfl⟩ := Option.map_eq_some_iff.mp h
        rcases buildFields_cases hfields with ⟨rfl, hblocks⟩ | ⟨callbacks, children, hbuilt, rfl⟩
        · exact .inl ⟨rfl, .inr hblocks⟩
        · refine .inr ⟨hbad, callbacks, children, hbuilt, ?_⟩
          split
          next heq => cases heq
          next heq =>
            rw [Option.some.injEq, Prod.mk.injEq, insertAll_eq_nil_iff Prod.fst,
              insertAll_eq_nil_iff Prod.fst] at heq
            exact .inl ⟨rfl, heq.1.1, heq.2.1⟩
          next callbacks' children' hne heq =>
            rw [Option.some.injEq, Prod.mk.injEq] at heq
            obtain ⟨rfl, rfl⟩ := heq
            refine .inr ⟨?_, _, rfl⟩
            by_contra hnil
            push Not at hnil
            rw [hnil.1, hnil.2] at hne
            exact hne rfl rfl

/-! ## What makes a tree unsupported -/

theorem Opens.mem_closure (h : Opens records t t') : t' ∈ closure records [t] := by
  rcases h.cases_tail with rfl | ⟨u, -, name, hmem⟩
  · exact List.mem_append_left _ (QualType.mem_partsOf.mpr ⟨_, by simp, QualType.self_mem_parts _⟩)
  · exact mem_closure_of_mem_fieldsOf hmem

/-- A type whose tree is unsupported is unmarshallable: what is spelled as on the path is
on the path. -/
theorem unmarshallable_of_unsupported {root : QualType}
    (hspell : SpelledApart getAsString records root) (hroot : Opens records root t)
    (hvisited : ∀ s ∈ visited, ∃ a, getTypeString getAsString a = s ∧ Opens records root a ∧
      Opens records a t)
    (h : build getAsString records fuel t visited = some tree)
    (hstatus : tree.status = .unsupported) : Unmarshallable records root := by
  induction fuel generalizing t visited tree with
  | zero => exact nomatch h
  | succ fuel ih =>
      rcases build_cases h with ⟨-, hbad | ⟨⟨name, type⟩, hfield, hblocks⟩⟩ |
        ⟨-, callbacks, children, -, ⟨rfl, -⟩ | ⟨-, reach, rfl⟩⟩
      · have hpart := (hasUnsupportedShape_iff (hspell.mono hroot.mem_closure) hbad).mp rfl
        exact ⟨t, hroot, .inl hpart⟩
      · have hstep : StepsTo records t type := ⟨name, hfield⟩
        have htype : Opens records root type := hroot.tail hstep
        rcases hblocks with ⟨hmem, hcarries⟩ | ⟨child, ⟨hnew, hchild⟩, hchildStatus⟩
        · have hcontains :=
            (containsFunctionPointer_iff (hspell.mono htype.mem_closure) hcarries).mp rfl
          obtain ⟨a, heq, hra, hat⟩ := hvisited _ hmem
          have hsame : type = a :=
            hspell _ _ htype.mem_closure hra.mem_closure heq.symm hcontains
          exact ⟨type, htype, .inr ⟨hcontains, .tail' (hsame ▸ hat) hstep⟩⟩
        · refine ih htype (fun s hs => ?_) hchild hchildStatus
          rcases List.mem_cons.mp hs with rfl | hs
          · exact ⟨type, rfl, htype, .refl⟩
          · obtain ⟨a, heq, hra, hat⟩ := hvisited s hs
            exact ⟨a, heq, hra, hat.tail hstep⟩
      · exact nomatch hstatus
      · exact nomatch hstatus

/-- The tree of a type is built, on some path, and is not unsupported. -/
def Builds (getAsString : QualType → Str) (records : List RecordDecl) (fuel : Nat) (t : QualType) :
    Prop :=
  ∃ visited tree, build getAsString records fuel t visited = some tree ∧ tree.status ≠ .unsupported

theorem FieldsBuilt.cases_of_mem {Built : QualType → CallbackTree → Prop}
    {Skipped : QualType → Prop} {fields callbacks : List (String × QualType)}
    {children : List (String × CallbackTree)}
    (h : FieldsBuilt Built Skipped fields callbacks children) {field : String × QualType}
    (hmem : field ∈ fields) (hcallee : field.2.callee? = none) :
    Skipped field.2 ∨ ∃ child, Built field.2 child ∧ child.status ≠ .unsupported := by
  induction h with
  | nil => exact absurd hmem List.not_mem_nil
  | callback hcallback _ ih =>
      rcases List.mem_cons.mp hmem with rfl | hmem
      · exact nomatch hcallee.symm.trans hcallback
      · exact ih hmem
  | skipped _ hskip _ ih =>
      rcases List.mem_cons.mp hmem with rfl | hmem
      · exact .inl hskip
      · exact ih hmem
  | empty _ hbuilt hstatus _ ih =>
      rcases List.mem_cons.mp hmem with rfl | hmem
      · exact .inr ⟨_, hbuilt, hstatus ▸ nofun⟩
      · exact ih hmem
  | child _ hbuilt hstatus _ ih =>
      rcases List.mem_cons.mp hmem with rfl | hmem
      · exact .inr ⟨_, hbuilt, hstatus ▸ nofun⟩
      · exact ih hmem

/-- From a tree that is not unsupported to the tree of a field that holds a callback. -/
theorem Builds.step (hspell : SpelledApart getAsString records t)
    (h : Builds getAsString records fuel t) (hstep : StepsTo records t t')
    (hcallee : t'.callee? = none) (hcontains : Contains records t') :
    ∃ fuel', fuel = fuel' + 1 ∧ Builds getAsString records fuel' t' := by
  obtain ⟨visited, tree, hbuild, hstatus⟩ := h
  cases fuel with
  | zero => exact nomatch hbuild
  | succ fuel =>
      refine ⟨fuel, rfl, ?_⟩
      rcases build_cases hbuild with ⟨hbad, -⟩ | ⟨-, callbacks, children, hfields, -⟩
      · exact absurd hbad hstatus
      · obtain ⟨name, hmem⟩ := hstep
        rcases hfields.cases_of_mem hmem hcallee with ⟨-, hnone⟩ | ⟨child, ⟨-, hchild⟩, hok⟩
        · have hin : t' ∈ closure records [t] := mem_closure_of_mem_fieldsOf hmem
          exact nomatch (containsFunctionPointer_iff (hspell.mono hin) hnone).mpr hcontains
        · exact ⟨_, child, hchild, hok⟩

theorem Builds.transGen (hspell : SpelledApart getAsString records t)
    (h : Builds getAsString records fuel t) (hsteps : Relation.TransGen (StepsTo records) t t')
    (hcallee : t'.callee? = none) (hcontains : Contains records t') :
    ∃ fuel' < fuel, Builds getAsString records fuel' t' := by
  induction hsteps using Relation.TransGen.head_induction_on generalizing fuel with
  | single hstep =>
      obtain ⟨fuel', rfl, hbuilds⟩ := h.step hspell hstep hcallee hcontains
      exact ⟨fuel', by omega, hbuilds⟩
  | head hstep hsteps ih =>
      obtain ⟨u, hu, -⟩ := Relation.TransGen.head'_iff.mp hsteps
      obtain ⟨fuel', rfl, hbuilds⟩ := h.step hspell hstep hu.callee?
        (hcontains.of_opens hsteps.to_reflTransGen)
      obtain ⟨fuel'', hlt, hbuilds'⟩ := ih (hspell.mono (Opens.mem_closure (.single hstep))) hbuilds
      exact ⟨fuel'', by omega, hbuilds'⟩

/-- A type that holds a function pointer and leads back to itself has no tree. -/
theorem Builds.not_cycle (hspell : SpelledApart getAsString records t)
    (h : Builds getAsString records fuel t) (hcontains : Contains records t) :
    ¬ Relation.TransGen (StepsTo records) t t := by
  intro hcycle
  obtain ⟨u, hu, -⟩ := Relation.TransGen.head'_iff.mp hcycle
  induction fuel using Nat.strongRecOn with
  | ind fuel ih =>
      obtain ⟨fuel', hlt, hbuilds⟩ := h.transGen hspell hcycle hu.callee? hcontains
      exact ih fuel' hlt hbuilds

theorem Builds.opens (hspell : SpelledApart getAsString records t)
    (h : Builds getAsString records fuel t) (hopens : Opens records t t')
    (hcallee : t'.callee? = none) (hcontains : Contains records t') :
    ∃ fuel', Builds getAsString records fuel' t' := by
  rcases Relation.reflTransGen_iff_eq_or_transGen.mp hopens with rfl | hsteps
  · exact ⟨fuel, h⟩
  · obtain ⟨fuel', -, hbuilds⟩ := h.transGen hspell hsteps hcallee hcontains
    exact ⟨fuel', hbuilds⟩

theorem not_unmarshallable_of_builds (hspell : SpelledApart getAsString records t)
    (h : Builds getAsString records fuel t) : ¬ Unmarshallable records t := by
  rintro ⟨t', hopens, hbad⟩
  have hspell' := hspell.mono hopens.mem_closure
  rcases hbad with ⟨part, hpart, hcontains⟩ | ⟨hcontains, hcycle⟩
  · have hcontains' : Contains records t' :=
      (contains_congr (stripped_of_closedPart hpart)).mp hcontains
    obtain ⟨fuel', visited, tree, hbuild, hstatus⟩ :=
      h.opens hspell hopens (callee?_of_closedPart hpart) hcontains'
    cases fuel' with
    | zero => exact nomatch hbuild
    | succ fuel' =>
        rcases build_cases hbuild with ⟨hbad, -⟩ | ⟨hshape, -⟩
        · exact hstatus hbad
        · exact nomatch (hasUnsupportedShape_iff hspell' hshape).mpr ⟨part, hpart, hcontains⟩
  · obtain ⟨u, hu, -⟩ := Relation.TransGen.head'_iff.mp hcycle
    obtain ⟨fuel', hbuilds⟩ := h.opens hspell hopens hu.callee? hcontains
    exact hbuilds.not_cycle hspell' hcontains hcycle

/-- `build` gives up exactly on the unmarshallable types. -/
theorem status_unsupported_iff (hspell : SpelledApart getAsString records t)
    (h : build getAsString records fuel t [] = some tree) :
    tree.status = .unsupported ↔ Unmarshallable records t := by
  constructor
  · intro hstatus
    refine unmarshallable_of_unsupported hspell .refl (fun s hs => ?_) h hstatus
    exact absurd hs List.not_mem_nil
  · intro hbad
    by_contra hstatus
    exact not_unmarshallable_of_builds hspell ⟨[], tree, h, hstatus⟩ hbad

/-! ## Counting function pointers -/

/-- The function pointers at a field and behind it. -/
def fieldPointers (pointers : QualType → List (List Nat × List String × QualType)) :
    (String × QualType) × Nat → List (List Nat × List String × QualType)
  | ((name, type), i) =>
      match type.callee? with
      | some callee => [([i], [name], callee)]
      | none => (pointers type).map fun (place, path, callee) => (i :: place, name :: path, callee)

/-- The function pointers at places of bounded length. -/
def pointersWithin (records : List RecordDecl) :
    Nat → QualType → List (List Nat × List String × QualType)
  | 0, _ => []
  | fuel + 1, t =>
      (fieldsBehind records t).zipIdx.flatMap (fieldPointers (pointersWithin records fuel))

theorem mem_pointersWithin {place : List Nat} {label : List String × QualType} :
    (place, label) ∈ pointersWithin records fuel t ↔
      pointerAt records t place = some label ∧ place.length ≤ fuel := by
  induction fuel generalizing t place label with
  | zero =>
      cases place with
      | nil => simp [pointersWithin, pointerAt]
      | cons i place => simp [pointersWithin]
  | succ fuel ih =>
      rw [pointersWithin, List.mem_flatMap]
      constructor
      · rintro ⟨⟨⟨name, type⟩, i⟩, hfield, hmem⟩
        rw [List.mk_mem_zipIdx_iff_getElem?] at hfield
        rw [fieldPointers] at hmem
        split at hmem
        next callee hcallee =>
          cases List.mem_singleton.mp hmem
          exact ⟨pointerAt_cons.mpr ⟨_, _, hfield, .inl ⟨rfl, _, hcallee, rfl⟩⟩, by simp⟩
        next hcallee =>
          obtain ⟨⟨place', path, callee⟩, hrest, heq⟩ := List.mem_map.mp hmem
          cases heq
          obtain ⟨hpointer, hle⟩ := ih.mp hrest
          exact ⟨pointerAt_cons.mpr ⟨_, _, hfield, .inr ⟨_, _, hpointer, rfl⟩⟩,
            Nat.succ_le_succ hle⟩
      · rintro ⟨hpointer, hle⟩
        cases place with
        | nil => cases hpointer
        | cons i place =>
            obtain ⟨name, type, hfield, h⟩ := pointerAt_cons.mp hpointer
            refine ⟨((name, type), i), List.mk_mem_zipIdx_iff_getElem?.mpr hfield, ?_⟩
            rw [fieldPointers]
            rcases h with ⟨rfl, callee, hcallee, rfl⟩ | ⟨path, callee, hrest, rfl⟩
            · rw [hcallee]
              exact List.mem_singleton_self _
            · rw [callee?_of_pointerAt hrest]
              exact List.mem_map.mpr ⟨_, ih.mpr ⟨hrest, Nat.le_of_succ_le_succ hle⟩, rfl⟩

/-- The places at a field begin with its position. -/
theorem head?_of_mem_fieldPointers
    {pointers : QualType → List (List Nat × List String × QualType)} {a : (String × QualType) × Nat}
    {place : List Nat} (h : place ∈ (fieldPointers pointers a).map Prod.fst) :
    place.head? = some a.2 := by
  obtain ⟨p, hp, rfl⟩ := List.mem_map.mp h
  rw [fieldPointers] at hp
  split at hp
  · rw [List.mem_singleton.mp hp]
    rfl
  · obtain ⟨_, -, rfl⟩ := List.mem_map.mp hp
    rfl

theorem nodup_pointersWithin (records : List RecordDecl) (fuel : Nat) (t : QualType) :
    ((pointersWithin records fuel t).map Prod.fst).Nodup := by
  induction fuel generalizing t with
  | zero => exact List.nodup_nil
  | succ fuel ih =>
      rw [pointersWithin, List.map_flatMap, List.nodup_flatMap]
      constructor
      · rintro ⟨⟨name, type⟩, i⟩ -
        rw [fieldPointers]
        split
        · exact List.nodup_singleton _
        · rw [List.map_map]
          have hmap := (ih type).map (List.cons_injective (a := i))
          rwa [List.map_map] at hmap
      · have hpositions := List.nodup_zipIdx_map_snd (fieldsBehind records t)
        refine (List.pairwise_map.mp hpositions).imp fun {a b} hne place ha hb => hne ?_
        have heq := (head?_of_mem_fieldPointers ha).symm.trans (head?_of_mem_fieldPointers hb)
        exact Option.some.inj heq

/-- The paths of the function pointers at bounded places, with what is behind them. -/
def labelsWithin (records : List RecordDecl) (fuel : Nat) (t : QualType) :
    List (List String × QualType) :=
  (pointersWithin records fuel t).map Prod.snd

/-- The labels at a field and behind it. -/
def fieldLabels (labels : QualType → List (List String × QualType)) :
    String × QualType → List (List String × QualType)
  | (name, type) =>
      match type.callee? with
      | some callee => [([name], callee)]
      | none => (labels type).map fun (path, callee) => (name :: path, callee)

theorem labelsWithin_succ : labelsWithin records (fuel + 1) t =
    (fieldsBehind records t).flatMap (fieldLabels (labelsWithin records fuel)) := by
  have hfield : ∀ a : (String × QualType) × Nat,
      (fieldPointers (pointersWithin records fuel) a).map Prod.snd =
        fieldLabels (labelsWithin records fuel) a.1 := by
    rintro ⟨⟨name, type⟩, i⟩
    rw [fieldPointers, fieldLabels]
    cases type.callee? with
    | some callee => rfl
    | none =>
        dsimp only
        rw [labelsWithin, List.map_map, List.map_map]
        rfl
  rw [labelsWithin, pointersWithin, List.map_flatMap, funext hfield]
  have hfst := List.zipIdx_map_fst 0 (fieldsBehind records t)
  conv_rhs => rw [← hfst, List.flatMap_map]

/-- All places of a type whose tree is built are within its fuel. -/
theorem Builds.length_le (hspell : SpelledApart getAsString records t)
    (h : Builds getAsString records fuel t) {place : List Nat} {label : List String × QualType}
    (hpointer : pointerAt records t place = some label) : place.length ≤ fuel := by
  induction place generalizing t fuel label with
  | nil => exact Nat.zero_le _
  | cons i place ih =>
      obtain ⟨name, type, hfield, ⟨rfl, -⟩ | ⟨path, callee, hrest, -⟩⟩ := pointerAt_cons.mp hpointer
      · obtain ⟨visited, tree, hbuild, -⟩ := h
        cases fuel with
        | zero => exact nomatch hbuild
        | succ fuel => exact Nat.le_add_left _ _
      · have hstep : StepsTo records t type := ⟨name, List.mem_of_getElem? hfield⟩
        obtain ⟨fuel', rfl, hbuilds⟩ := h.step hspell hstep (callee?_of_pointerAt hrest)
          (contains_of_pointerAt hrest)
        exact Nat.succ_le_succ (ih (hspell.mono (Opens.mem_closure (.single hstep))) hbuilds hrest)

/-- The labels are all there are, and `HasPointers` is that there are some. -/
theorem Builds.hasPointers_iff (hspell : SpelledApart getAsString records t)
    (h : Builds getAsString records fuel t) :
    HasPointers records t ↔ labelsWithin records fuel t ≠ [] := by
  rw [labelsWithin, ne_eq, List.map_eq_nil_iff]
  constructor
  · rintro ⟨place, hplace⟩ hnil
    obtain ⟨label, hlabel⟩ := Option.isSome_iff_exists.mp hplace
    have hmem := mem_pointersWithin.mpr ⟨hlabel, h.length_le hspell hlabel⟩
    rw [hnil] at hmem
    exact absurd hmem List.not_mem_nil
  · intro hne
    obtain ⟨⟨place, label⟩, hmem⟩ := List.exists_mem_of_ne_nil _ hne
    exact ⟨place, Option.isSome_iff_exists.mpr ⟨label, (mem_pointersWithin.mp hmem).1⟩⟩

/-- A tree against the labels of its type: it has no more entries than there are labels, as
many exactly if the members are apart, and then they are the same. -/
structure Counted (records : List RecordDecl) (t : QualType)
    (labels : List (List String × QualType)) (tree : CallbackTree) : Prop where
  hasPointers_iff : HasPointers records t ↔ labels ≠ []
  noCallbacks : tree.status = .noCallbacks → labels = [] ∧ tree.entries = []
  hasCallbacks : tree.status = .hasCallbacks → tree.entries ≠ []
  le : tree.entries.length ≤ labels.length
  eq_iff : tree.entries.length = labels.length ↔ MembersApart records t
  perm : MembersApart records t → labels.Perm tree.entries

theorem Counted.hasPointers {labels : List (List String × QualType)}
    (h : Counted records t labels tree) (hstatus : tree.status = .hasCallbacks) :
    HasPointers records t := by
  refine h.hasPointers_iff.mpr fun hnil => ?_
  have hle := h.le
  rw [hnil] at hle
  exact h.hasCallbacks hstatus (List.length_eq_zero_iff.mp (Nat.le_zero.mp hle))

theorem not_hasPointers_of_callee? (h : t.callee?.isSome = true) : ¬ HasPointers records t := by
  rintro ⟨place, hplace⟩
  obtain ⟨label, hlabel⟩ := Option.isSome_iff_exists.mp hplace
  rw [callee?_of_pointerAt hlabel] at h
  exact nomatch h

section Fields

variable {Built : QualType → CallbackTree → Prop} {Skipped : QualType → Prop}
  {fields callbacks : List (String × QualType)} {children : List (String × CallbackTree)}
  {labels : QualType → List (List String × QualType)}

theorem membersApart_of_callee? (h : t.callee?.isSome = true) : MembersApart records t :=
  membersApart_of_not_hasPointers (not_hasPointers_of_callee? h)

/-- What holds of all fields may be assumed of those that trees are made for. -/
theorem FieldsBuilt.assume {P : QualType → Prop}
    (h : FieldsBuilt Built Skipped fields callbacks children) (hP : ∀ field ∈ fields, P field.2) :
    FieldsBuilt (fun type child => P type ∧ Built type child) (fun type => P type ∧ Skipped type)
      fields callbacks children := by
  induction h with
  | nil => exact .nil
  | callback hcallee _ ih => exact .callback hcallee (ih (List.forall_mem_cons.mp hP).2)
  | skipped hcallee hskip _ ih =>
      obtain ⟨hself, hrest⟩ := List.forall_mem_cons.mp hP
      exact .skipped hcallee ⟨hself, hskip⟩ (ih hrest)
  | empty hcallee hbuilt hstatus _ ih =>
      obtain ⟨hself, hrest⟩ := List.forall_mem_cons.mp hP
      exact .empty hcallee ⟨hself, hbuilt⟩ hstatus (ih hrest)
  | child hcallee hbuilt hstatus _ ih =>
      obtain ⟨hself, hrest⟩ := List.forall_mem_cons.mp hP
      exact .child hcallee ⟨hself, hbuilt⟩ hstatus (ih hrest)

theorem FieldsBuilt.exists_of_child (h : FieldsBuilt Built Skipped fields callbacks children)
    {p : String × CallbackTree} (hp : p ∈ children) : p.2.status = .hasCallbacks ∧
      ∃ type, (p.1, type) ∈ fields ∧ Built type p.2 := by
  induction h with
  | nil => exact absurd hp List.not_mem_nil
  | callback _ _ ih =>
      obtain ⟨hstatus, type, hmem, hbuilt⟩ := ih hp
      exact ⟨hstatus, type, List.mem_cons_of_mem _ hmem, hbuilt⟩
  | skipped _ _ _ ih =>
      obtain ⟨hstatus, type, hmem, hbuilt⟩ := ih hp
      exact ⟨hstatus, type, List.mem_cons_of_mem _ hmem, hbuilt⟩
  | empty _ _ _ _ ih =>
      obtain ⟨hstatus, type, hmem, hbuilt⟩ := ih hp
      exact ⟨hstatus, type, List.mem_cons_of_mem _ hmem, hbuilt⟩
  | child _ hbuilt hstatus _ ih =>
      rcases List.mem_cons.mp hp with rfl | hp
      · exact ⟨hstatus, _, List.mem_cons_self, hbuilt⟩
      · obtain ⟨hstatus', type, hmem, hbuilt'⟩ := ih hp
        exact ⟨hstatus', type, List.mem_cons_of_mem _ hmem, hbuilt'⟩

/-- The names in the two maps, by the fields they come from. -/
theorem FieldsBuilt.mem_names (h : FieldsBuilt Built Skipped fields callbacks children)
    (hbuilt : ∀ type child, Built type child → child.status ≠ .unsupported →
      Counted records type (labels type) child)
    (hskipped : ∀ type, Skipped type → ¬ HasPointers records type) (name : String) :
    (name ∈ callbacks.map Prod.fst ↔
      ∃ field ∈ fields, field.1 = name ∧ field.2.callee?.isSome = true) ∧
    (name ∈ children.map Prod.fst ↔
      ∃ field ∈ fields, field.1 = name ∧ HasPointers records field.2) := by
  induction h with
  | nil => simp
  | @callback name' type callee fields callbacks children hcallee _ ih =>
      have hnone : ¬ HasPointers records type := not_hasPointers_of_callee? (hcallee ▸ rfl)
      simp [ih.1, ih.2, hcallee, hnone, eq_comm (a := name) (b := name')]
  | skipped hcallee hskip _ ih =>
      simp [ih.1, ih.2, hcallee, hskipped _ hskip]
  | empty hcallee hbuild hstatus _ ih =>
      have hcounted := hbuilt _ _ hbuild (hstatus ▸ nofun)
      have hnone := mt hcounted.hasPointers_iff.mp (not_not.mpr (hcounted.noCallbacks hstatus).1)
      simp [ih.1, ih.2, hcallee, hnone]
  | @child name' type child fields callbacks children hcallee hbuild hstatus _ ih =>
      have hcounted := hbuilt _ _ hbuild (hstatus ▸ nofun)
      have hsome := hcounted.hasPointers hstatus
      simp [ih.1, ih.2, hcallee, hsome, eq_comm (a := name) (b := name')]

/-- No two fields clash exactly if the names in each map differ. -/
theorem FieldsBuilt.pairwise_iff (h : FieldsBuilt Built Skipped fields callbacks children)
    (hbuilt : ∀ type child, Built type child → child.status ≠ .unsupported →
      Counted records type (labels type) child)
    (hskipped : ∀ type, Skipped type → ¬ HasPointers records type) :
    (fields.Pairwise fun f g => ¬ Clash records f g) ↔
      (callbacks.map Prod.fst).Nodup ∧ (children.map Prod.fst).Nodup := by
  induction h with
  | nil => simp
  | @callback name type callee fields callbacks children hcallee hrest ih =>
      have hnames := (hrest.mem_names hbuilt hskipped name).1
      have hnone : ¬ HasPointers records type := not_hasPointers_of_callee? (hcallee ▸ rfl)
      rw [List.pairwise_cons, ih, List.map_cons, List.nodup_cons, hnames, and_assoc]
      refine and_congr_left fun _ => ?_
      simp only [Clash, hcallee, hnone, Option.isSome_some, true_and, false_and, or_false]
      push Not
      exact forall₂_congr fun field _ => by rw [eq_comm]
  | @skipped name type fields callbacks children hcallee hskip hrest ih =>
      rw [List.pairwise_cons, ih]
      simp [Clash, hcallee, hskipped _ hskip]
  | @empty name type child fields callbacks children hcallee hbuild hstatus hrest ih =>
      have hcounted := hbuilt _ _ hbuild (hstatus ▸ nofun)
      have hnone := mt hcounted.hasPointers_iff.mp (not_not.mpr (hcounted.noCallbacks hstatus).1)
      rw [List.pairwise_cons, ih]
      simp [Clash, hcallee, hnone]
  | @child name type child fields callbacks children hcallee hbuild hstatus hrest ih =>
      have hnames := (hrest.mem_names hbuilt hskipped name).2
      have hsome := (hbuilt _ _ hbuild (hstatus ▸ nofun)).hasPointers hstatus
      rw [List.pairwise_cons, ih, List.map_cons, List.nodup_cons, hnames, and_left_comm]
      refine and_congr_right fun _ => and_congr_left fun _ => ?_
      simp only [Clash, hcallee, hsome, Option.isSome_none, Bool.false_eq_true, true_and, false_and,
        false_or]
      push Not
      exact forall₂_congr fun field _ => by rw [eq_comm]

/-- The entries of the callbacks and children of a record against the labels of its
fields. -/
theorem FieldsBuilt.counted (h : FieldsBuilt Built Skipped fields callbacks children)
    (hbuilt : ∀ type child, Built type child → child.status ≠ .unsupported →
      Counted records type (labels type) child)
    (hskipped : ∀ type, Skipped type → ¬ HasPointers records type ∧ labels type = []) :
    callbacks.length + (children.map fun p => p.2.entries.length).sum ≤
        (fields.flatMap (fieldLabels labels)).length ∧
      (callbacks.length + (children.map fun p => p.2.entries.length).sum =
          (fields.flatMap (fieldLabels labels)).length ↔
        ∀ field ∈ fields, MembersApart records field.2) ∧
      ((∀ field ∈ fields, MembersApart records field.2) →
        (fields.flatMap (fieldLabels labels)).Perm
          (children.flatMap CallbackTree.entriesAt ++
            callbacks.map fun (name, callee) => ([name], callee))) := by
  induction h with
  | nil => simp
  | @callback name type callee fields callbacks children hcallee _ ih =>
      obtain ⟨hle, heq, hperm⟩ := ih
      have hhead : fieldLabels labels (name, type) = [([name], callee)] := by
        rw [fieldLabels, hcallee]
      have hapart : MembersApart records type := membersApart_of_callee? (hcallee ▸ rfl)
      rw [List.flatMap_cons, hhead, List.forall_mem_cons, List.length_append, ← heq]
      simp only [hapart, true_and, List.length_cons, List.length_nil]
      refine ⟨by omega, by omega, fun hall => ?_⟩
      exact ((hperm (heq.mp hall)).cons _).trans List.perm_middle.symm
  | @skipped name type fields callbacks children hcallee hskip _ ih =>
      obtain ⟨hle, heq, hperm⟩ := ih
      obtain ⟨hnone, hlabels⟩ := hskipped type hskip
      have hhead : fieldLabels labels (name, type) = [] := by
        rw [fieldLabels, hcallee, hlabels]
        rfl
      rw [List.flatMap_cons, hhead, List.nil_append, List.forall_mem_cons, ← heq]
      simp only [membersApart_of_not_hasPointers hnone, true_and]
      exact ⟨hle, fun hall => hperm (heq.mp hall)⟩
  | @empty name type child fields callbacks children hcallee hbuild hstatus _ ih =>
      obtain ⟨hle, heq, hperm⟩ := ih
      have hcounted := hbuilt type child hbuild (hstatus ▸ nofun)
      obtain ⟨hlabels, -⟩ := hcounted.noCallbacks hstatus
      have hhead : fieldLabels labels (name, type) = [] := by
        rw [fieldLabels, hcallee, hlabels]
        rfl
      have hnone : ¬ HasPointers records type := fun hp => hcounted.hasPointers_iff.mp hp hlabels
      rw [List.flatMap_cons, hhead, List.nil_append, List.forall_mem_cons, ← heq]
      simp only [membersApart_of_not_hasPointers hnone, true_and]
      exact ⟨hle, fun hall => hperm (heq.mp hall)⟩
  | @child name type child fields callbacks children hcallee hbuild hstatus _ ih =>
      obtain ⟨hle, heq, hperm⟩ := ih
      have hcounted := hbuilt type child hbuild (hstatus ▸ nofun)
      have hhead : fieldLabels labels (name, type) =
          (labels type).map fun (path, callee) => (name :: path, callee) := by
        rw [fieldLabels, hcallee]
      have hlen := hcounted.le
      rw [List.flatMap_cons, hhead, List.forall_mem_cons, ← heq, ← hcounted.eq_iff,
        List.length_append, List.length_map, List.map_cons, List.sum_cons]
      refine ⟨by dsimp only; omega, by dsimp only; omega, fun hall => ?_⟩
      have hself := (hcounted.perm (hcounted.eq_iff.mp hall.1)).map
        fun (p : List String × QualType) => (name :: p.1, p.2)
      rw [List.flatMap_cons]
      rw [List.append_assoc]
      exact hself.append (hperm (heq.mp hall.2))

/-- The entries of a node put together from maps. -/
theorem length_entries_node (callbacks : List (String × QualType))
    (children : List (String × CallbackTree)) (outCallbacks : List (String × QualType))
    (reach : Reach) :
    (CallbackTree.node .hasCallbacks reach callbacks children outCallbacks).entries.length =
      (callbacks.map fun _ => 1).sum + (children.map fun p => p.2.entries.length).sum := by
  rw [CallbackTree.entries, CallbackTree.entriesOf_eq_flatMap, List.length_append, List.length_map,
    List.length_flatMap, Nat.add_comm]
  simp

end Fields

/-- A record whose fields give nothing holds no function pointer. -/
theorem not_hasPointers_of_names
    (hcallbacks : ∀ field ∈ fieldsBehind records t, field.2.callee?.isSome = false)
    (hchildren : ∀ field ∈ fieldsBehind records t, ¬ HasPointers records field.2) :
    ¬ HasPointers records t := by
  rintro ⟨place, hplace⟩
  obtain ⟨label, hlabel⟩ := Option.isSome_iff_exists.mp hplace
  cases place with
  | nil => exact nomatch hlabel
  | cons i place =>
      obtain ⟨name, type, hfield, h⟩ := pointerAt_cons.mp hlabel
      have hmem := List.mem_of_getElem? hfield
      rcases h with ⟨-, callee, hcallee, -⟩ | ⟨path, callee, hrest, -⟩
      · have hnone := hcallbacks _ hmem
        rw [hcallee] at hnone
        exact nomatch hnone
      · exact hchildren _ hmem ⟨place, hrest ▸ rfl⟩

/-- The tree of a type, unless it is unsupported, against the labels of the type. -/
theorem counted_of_build (hspell : SpelledApart getAsString records t)
    (h : build getAsString records fuel t visited = some tree)
    (hstatus : tree.status ≠ .unsupported) :
    Counted records t (labelsWithin records fuel t) tree := by
  induction fuel generalizing t visited tree with
  | zero => exact nomatch h
  | succ fuel ih =>
      have hhas := Builds.hasPointers_iff hspell ⟨visited, tree, h, hstatus⟩
      rcases build_cases h with ⟨hbad, -⟩ | ⟨-, callbacks, children, hfields, htree⟩
      · exact absurd hbad hstatus
      have hfields := hfields.assume (P := fun type => SpelledApart getAsString records type)
        fun field hfield => hspell.mono (mem_closure_of_mem_fieldsOf hfield)
      have hbuilt : ∀ type child, SpelledApart getAsString records type ∧
          BuiltBy getAsString (build getAsString records fuel) visited type child →
            child.status ≠ .unsupported →
              Counted records type (labelsWithin records fuel type) child :=
        fun type child hchild hok => ih hchild.1 hchild.2.2 hok
      have hskipped : ∀ type, SpelledApart getAsString records type ∧
          SkippedBy getAsString records fuel visited type →
            ¬ HasPointers records type ∧ labelsWithin records fuel type = [] := by
        rintro type ⟨hspell', -, hnone⟩
        have hnot : ¬ HasPointers records type := fun hp =>
          nomatch (containsFunctionPointer_iff hspell' hnone).mpr hp.contains
        refine ⟨hnot, ?_⟩
        rw [labelsWithin, List.map_eq_nil_iff]
        refine List.eq_nil_iff_forall_not_mem.mpr fun ⟨place, label⟩ hmem => hnot ⟨place, ?_⟩
        rw [(mem_pointersWithin.mp hmem).1]
        rfl
      have hnames := hfields.mem_names hbuilt fun type hs => (hskipped type hs).1
      have hpairwise := hfields.pairwise_iff hbuilt fun type hs => (hskipped type hs).1
      obtain ⟨hle, heq, hperm⟩ := hfields.counted hbuilt hskipped
      rw [← labelsWithin_succ] at hle heq hperm
      rcases htree with ⟨rfl, rfl, rfl⟩ | ⟨hne, reach, rfl⟩
      · have hnot : ¬ HasPointers records t := by
          refine not_hasPointers_of_names (fun field hfield => ?_) fun field hfield hp => ?_
          · by_contra hcallee
            rw [Bool.not_eq_false] at hcallee
            exact absurd ((hnames field.1).1.mpr ⟨field, hfield, rfl, hcallee⟩) List.not_mem_nil
          · exact absurd ((hnames field.1).2.mpr ⟨field, hfield, rfl, hp⟩) List.not_mem_nil
        have hnil : labelsWithin records (fuel + 1) t = [] := by
          by_contra hsome
          exact hnot (hhas.mpr hsome)
        have hapart : MembersApart records t := membersApart_of_not_hasPointers hnot
        rw [hnil]
        exact ⟨by simp [hnot], fun _ => ⟨rfl, rfl⟩, nofun, le_rfl, by simp [hapart],
          fun _ => .refl _⟩
      · have hone : ∀ p ∈ callbacks, 0 < (fun _ : String × QualType => 1) p := fun _ _ => one_pos
        have hpos : ∀ p ∈ children,
            0 < (fun p : String × CallbackTree => p.2.entries.length) p := by
          intro p hp
          obtain ⟨hhasCallbacks, type, -, hchild⟩ := hfields.exists_of_child hp
          have hcounted := hbuilt type p.2 hchild (hhasCallbacks ▸ nofun)
          exact List.length_pos_of_ne_nil (hcounted.hasCallbacks hhasCallbacks)
        have hlen := length_entries_node (insertAll Prod.fst callbacks [])
          (insertAll Prod.fst children []) [] reach
        have hle₁ := sum_insertAll_le Prod.fst callbacks fun _ => 1
        have hle₂ := sum_insertAll_le Prod.fst children fun p => p.2.entries.length
        have heq₁ := sum_insertAll_eq_iff Prod.fst hone
        have heq₂ := sum_insertAll_eq_iff Prod.fst hpos
        have hsum : (callbacks.map fun _ => 1).sum = callbacks.length := by simp
        refine ⟨hhas, nofun, fun _ hnil => ?_, by omega, ?_, fun hapart => ?_⟩
        · rw [hnil, List.length_nil] at hlen
          rcases hne with hne | hne
          · have hpos₁ := sum_insertAll_pos Prod.fst hone hne
            omega
          · have hpos₂ := sum_insertAll_pos Prod.fst hpos hne
            omega
        · rw [membersApart_iff, hpairwise, ← heq, ← heq₁, ← heq₂]
          omega
        · rw [membersApart_iff, hpairwise] at hapart
          refine (hperm hapart.2).trans ?_
          rw [CallbackTree.entries, CallbackTree.entriesOf_eq_flatMap]
          exact ((perm_insertAll_iff.mpr hapart.1.2).symm.flatMap_right _).append
            ((perm_insertAll_iff.mpr hapart.1.1).symm.map _)

/-! ## Complete trees -/

/-- A tree that is not unsupported is complete exactly if the members of its type are
apart. -/
theorem complete_iff (hspell : SpelledApart getAsString records t)
    (h : build getAsString records fuel t visited = some tree)
    (hstatus : tree.status ≠ .unsupported) :
    Complete records t tree ↔ MembersApart records t := by
  have hcounted := counted_of_build hspell h hstatus
  have hmem : ∀ place label, (place, label) ∈ pointersWithin records fuel t ↔
      pointerAt records t place = some label := by
    intro place label
    rw [mem_pointersWithin]
    exact and_iff_left_of_imp (Builds.length_le hspell ⟨visited, tree, h, hstatus⟩)
  constructor
  · rintro ⟨pointers, hnodup, hpointers, hperm⟩
    have hsame : pointers.Perm (pointersWithin records fuel t) := by
      refine (List.perm_ext_iff_of_nodup hnodup.of_map
        (nodup_pointersWithin records fuel t).of_map).mpr ?_
      rintro ⟨place, label⟩
      rw [hpointers, hmem]
    have hlen := hperm.length_eq.symm.trans (hsame.map Prod.snd).length_eq
    exact hcounted.eq_iff.mp hlen
  · intro hapart
    exact ⟨pointersWithin records fuel t, nodup_pointersWithin records fuel t, hmem,
      hcounted.perm hapart⟩

/-- `build` ends on a type, and either gives up or has all function pointers of the type in
its tree, each once and at its path; without callbacks in its tree, the type has none. -/
structure BuildsComplete (getAsString : QualType → Str) (records : List RecordDecl)
    (t : QualType) : Prop where
  ends : Ends fun fuel => build getAsString records fuel t []
  complete : ∀ fuel tree, build getAsString records fuel t [] = some tree →
    tree.status = .unsupported ∨ Complete records t tree
  noCallbacks : ∀ fuel tree, build getAsString records fuel t [] = some tree →
    tree.status = .noCallbacks → ¬ HasPointers records t

/-- A type is built completely exactly if it is unmarshallable, or no two of its callbacks or
of its members that hold callbacks share a record and a name. -/
theorem buildsComplete_iff (hspell : SpelledApart getAsString records t) :
    BuildsComplete getAsString records t ↔
      Unmarshallable records t ∨ MembersApart records t := by
  constructor
  · intro h
    obtain ⟨fuel, hends⟩ := h.ends
    obtain ⟨tree, htree⟩ := Option.isSome_iff_exists.mp (hends fuel le_rfl)
    by_cases hstatus : tree.status = .unsupported
    · exact .inl ((status_unsupported_iff hspell htree).mp hstatus)
    · exact .inr ((complete_iff hspell htree hstatus).mp
        ((h.complete fuel tree htree).resolve_left hstatus))
  · intro h
    refine ⟨ends_build getAsString records t [], fun fuel tree htree => ?_,
      fun fuel tree htree hstatus hsome => ?_⟩
    · by_cases hstatus : tree.status = .unsupported
      · exact .inl hstatus
      · refine .inr ((complete_iff hspell htree hstatus).mpr (h.resolve_left fun hbad => ?_))
        exact hstatus ((status_unsupported_iff hspell htree).mpr hbad)
    · have hcounted := counted_of_build hspell htree (hstatus ▸ nofun)
      exact hcounted.hasPointers_iff.mp hsome (hcounted.noCallbacks hstatus).1

/-! ## A record with anonymous members -/

section Hooks

/-- `void (void)`. -/
def hookType : QualType := .functionProto .void [] false

def openHooks : QualType := .tag {} .struct "hooks::(unnamed at hooks.h:2:5)"

def closeHooks : QualType := .tag {} .struct "hooks::(unnamed at hooks.h:3:5)"

/-- `struct hooks { struct { void (*on_open)(void); }; struct { void (*on_close)(void); }; }`,
where the second member may have a name. -/
def hooksRecords (second : String) : List RecordDecl :=
  [⟨.struct, "hooks", [("", openHooks), (second, closeHooks)]⟩,
    ⟨.struct, "hooks::(unnamed at hooks.h:2:5)", [("on_open", .pointerTo hookType)]⟩,
    ⟨.struct, "hooks::(unnamed at hooks.h:3:5)", [("on_close", .pointerTo hookType)]⟩]

def hooksPointer : QualType := .pointerTo (.tag {} .struct "hooks")

/-- Of two anonymous members, the tree has only the first. -/
def hooksTree : CallbackTree :=
  .node .hasCallbacks .byPointer []
    [("", .node .hasCallbacks .byValue [("on_open", hookType)] [] [])] []

theorem build_hooks :
    build QualType.getAsString (hooksRecords "") 10 hooksPointer [] = some hooksTree := by
  rfl

/-- The types that occur. -/
def hooksTypes : List QualType :=
  [hooksPointer, .tag {} .struct "hooks", openHooks, closeHooks, .pointerTo hookType, hookType,
    .void]

theorem spelledApart_hooks (second : String) :
    SpelledApart QualType.getAsString (hooksRecords second) hooksPointer := by
  have hclosure : closure (hooksRecords second) [hooksPointer] ⊆ hooksTypes := by
    show [hooksPointer, .tag {} .struct "hooks", openHooks, closeHooks, .pointerTo hookType,
      hookType, .void, .pointerTo hookType, hookType, .void] ⊆ hooksTypes
    simp [hooksTypes]
  have hnodup : (hooksTypes.map (getTypeString QualType.getAsString)).Nodup := by
    decide
  intro s s' hs hs' heq _
  exact List.inj_on_of_nodup_map hnodup (hclosure hs) (hclosure hs') heq

theorem membersApart_hooks : MembersApart (hooksRecords "closing") hooksPointer := by
  have hmember : ∀ type name, fieldsBehind (hooksRecords "closing") type =
      [(name, .pointerTo hookType)] → MembersApart (hooksRecords "closing") type := by
    intro type name hfields
    refine membersApart_iff.mpr ?_
    rw [hfields]
    refine ⟨List.pairwise_singleton _ _, fun field hfield => ?_⟩
    rw [List.mem_singleton.mp hfield]
    exact membersApart_of_callee? rfl
  refine membersApart_iff.mpr ?_
  have hfields : fieldsBehind (hooksRecords "closing") hooksPointer =
      [("", openHooks), ("closing", closeHooks)] := rfl
  rw [hfields]
  refine ⟨by simp [Clash], fun field hfield => ?_⟩
  rcases List.mem_cons.mp hfield with rfl | hfield
  · exact hmember _ "on_open" rfl
  · rw [List.mem_singleton.mp hfield]
    exact hmember _ "on_close" rfl

/-- With one of the members named, the tree is complete. -/
theorem buildsComplete_hooks :
    BuildsComplete QualType.getAsString (hooksRecords "closing") hooksPointer :=
  (buildsComplete_iff (spelledApart_hooks "closing")).mpr (.inr membersApart_hooks)

/-- With two anonymous members, the tree lacks the callback in the second. -/
theorem not_buildsComplete : ¬ ∀ (getAsString : QualType → Str) (records : List RecordDecl)
    (t : QualType), SpelledApart getAsString records t → BuildsComplete getAsString records t := by
  intro h
  rcases (h _ _ _ (spelledApart_hooks "")).complete 10 _ build_hooks with hstatus | hcomplete
  · exact nomatch hstatus
  · obtain ⟨pointers, -, hpointers, hperm⟩ := hcomplete
    have hmem := (hpointers [1, 0] (["", "on_close"], hookType)).mpr rfl
    have hentry := hperm.mem_iff.mp (List.mem_map_of_mem hmem)
    simp [hooksTree, CallbackTree.entries, CallbackTree.entriesOf] at hentry

end Hooks

end Lorelei.TLC
