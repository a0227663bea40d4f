import Lorelei.TLC.Generate
import Lorelei.TLC.StatReach

/-!
# The walks over types end

A translation unit has finitely many records, and a type finitely many parts. So the types
that some types lead to have finitely many spellings, and with enough fuel stat finishes
(`exists_stat`) and every tree is built (`exists_argumentTrees`).
-/

namespace Lorelei

open Support Worklist

namespace QualType

mutual

/-- A type and the types it is written with. -/
def parts : QualType → List QualType
  | .builtin quals kind => [.builtin quals kind]
  | .pointer quals pointee => .pointer quals pointee :: pointee.parts
  | .array element size => .array element size :: element.parts
  | .functionProto returnType paramTypes isVariadic =>
      .functionProto returnType paramTypes isVariadic :: (returnType.parts ++ partsOf paramTypes)
  | .functionNoProto returnType => .functionNoProto returnType :: returnType.parts
  | .tag quals kind name => [.tag quals kind name]

def partsOf : List QualType → List QualType
  | [] => []
  | t :: types => t.parts ++ partsOf types

end

theorem self_mem_parts (t : QualType) : t ∈ t.parts := by
  cases t <;> simp [parts]

theorem mem_partsOf {t : QualType} {types : List QualType} :
    t ∈ partsOf types ↔ ∃ s ∈ types, t ∈ s.parts := by
  induction types with
  | nil => simp [partsOf]
  | cons s types ih => simp [partsOf, ih]

mutual

/-- The parts of a part are parts. -/
theorem parts_subset : ∀ (s : QualType) {t : QualType}, t ∈ s.parts → t.parts ⊆ s.parts
  | .builtin quals kind, t, h => by
      rw [parts, List.mem_singleton] at h
      exact h ▸ List.Subset.refl _
  | .pointer quals pointee, t, h => by
      rw [parts] at h
      rcases List.mem_cons.mp h with rfl | h
      · exact List.Subset.refl _
      · rw [parts]
        exact List.subset_cons_of_subset _ (parts_subset pointee h)
  | .array element size, t, h => by
      rw [parts] at h
      rcases List.mem_cons.mp h with rfl | h
      · exact List.Subset.refl _
      · rw [parts]
        exact List.subset_cons_of_subset _ (parts_subset element h)
  | .functionProto returnType paramTypes isVariadic, t, h => by
      rw [parts] at h
      rcases List.mem_cons.mp h with rfl | h
      · exact List.Subset.refl _
      · rw [parts]
        refine List.subset_cons_of_subset _ ?_
        rcases List.mem_append.mp h with h | h
        · exact List.subset_append_of_subset_left _ (parts_subset returnType h)
        · exact List.subset_append_of_subset_right _ (partsOf_subset paramTypes h)
  | .functionNoProto returnType, t, h => by
      rw [parts] at h
      rcases List.mem_cons.mp h with rfl | h
      · exact List.Subset.refl _
      · rw [parts]
        exact List.subset_cons_of_subset _ (parts_subset returnType h)
  | .tag quals kind name, t, h => by
      rw [parts, List.mem_singleton] at h
      exact h ▸ List.Subset.refl _

theorem partsOf_subset : ∀ (types : List QualType) {t : QualType},
    t ∈ partsOf types → t.parts ⊆ partsOf types
  | [], t, h => absurd h List.not_mem_nil
  | s :: types, t, h => by
      rw [partsOf] at h ⊢
      rcases List.mem_append.mp h with h | h
      · exact List.subset_append_of_subset_left _ (parts_subset s h)
      · exact List.subset_append_of_subset_right _ (partsOf_subset types h)

end

end QualType

/-! ## Closed sets of types -/

/-- All types that the fields of records are written with. -/
def fieldParts (records : List RecordDecl) : List QualType :=
  records.flatMap fun r => r.fields.flatMap fun field => field.2.parts

/-- The types that some types may lead to. -/
def closure (records : List RecordDecl) (types : List QualType) : List QualType :=
  QualType.partsOf types ++ fieldParts records

variable {records : List RecordDecl} {types : List QualType} {t t' : QualType}

theorem parts_subset_fieldParts {r : RecordDecl} {field : String × QualType} (hr : r ∈ records)
    (hfield : field ∈ r.fields) : field.2.parts ⊆ fieldParts records := by
  intro s hs
  exact List.mem_flatMap.mpr ⟨r, hr, List.mem_flatMap.mpr ⟨field, hfield, hs⟩⟩

theorem exists_record_of_mem_fieldsOf {field : String × QualType} (h : field ∈ fieldsOf records t) :
    ∃ r ∈ records, field ∈ r.fields := by
  have hfind : ∀ kind name, field ∈ ((records.find? fun r => r.kind = kind && r.name = name).map
      RecordDecl.fields).getD [] → ∃ r ∈ records, field ∈ r.fields := by
    intro kind name h
    cases hr : records.find? fun r => r.kind = kind && r.name = name with
    | none => simp [hr] at h
    | some r => exact ⟨r, List.mem_of_find?_eq_some hr, by simpa [hr] using h⟩
  cases t with
  | tag quals kind name =>
      cases kind with
      | struct => exact hfind _ _ h
      | union => exact hfind _ _ h
      | enum => exact absurd h List.not_mem_nil
  | _ => exact absurd h List.not_mem_nil

theorem parts_subset_closure (h : t ∈ closure records types) :
    t.parts ⊆ closure records types := by
  rcases List.mem_append.mp h with h | h
  · exact List.subset_append_of_subset_left _ (QualType.partsOf_subset types h)
  · refine List.subset_append_of_subset_right _ ?_
    obtain ⟨r, hr, h⟩ := List.mem_flatMap.mp h
    obtain ⟨field, hfield, h⟩ := List.mem_flatMap.mp h
    exact fun _ hs => parts_subset_fieldParts hr hfield (QualType.parts_subset _ h hs)

theorem mem_closure_of_mem_fieldsOf {field : String × QualType} (h : field ∈ fieldsOf records t) :
    field.2 ∈ closure records types := by
  obtain ⟨r, hr, hfield⟩ := exists_record_of_mem_fieldsOf h
  exact List.mem_append_right _ (parts_subset_fieldParts hr hfield field.2.self_mem_parts)

theorem signatureTypes_subset_parts : signatureTypes t ⊆ t.parts := by
  intro s hs
  cases t with
  | functionProto returnType paramTypes isVariadic =>
      rw [QualType.parts]
      refine List.mem_cons_of_mem _ (List.mem_append.mpr ?_)
      rcases List.mem_append.mp hs with hs | hs
      · split at hs
        · exact absurd hs List.not_mem_nil
        · exact .inl (List.mem_singleton.mp hs ▸ returnType.self_mem_parts)
      · exact .inr (QualType.mem_partsOf.mpr ⟨s, hs, s.self_mem_parts⟩)
  | functionNoProto returnType =>
      rw [QualType.parts]
      rw [signatureTypes] at hs
      split at hs
      · exact absurd hs List.not_mem_nil
      · exact List.mem_cons_of_mem _ (List.mem_singleton.mp hs ▸ returnType.self_mem_parts)
  | _ => exact absurd hs List.not_mem_nil

/-- A closed set is closed under successors. -/
theorem successors_subset_closure (h : t ∈ closure records types) :
    successors records t ⊆ closure records types := by
  have hparts := parts_subset_closure h
  intro s hs
  cases t with
  | pointer quals pointee =>
      rw [QualType.parts] at hparts
      rw [successors] at hs
      split at hs
      · exact hparts (List.mem_cons_of_mem _ (signatureTypes_subset_parts hs))
      · rw [List.mem_singleton.mp hs]
        exact hparts (List.mem_cons_of_mem _ pointee.self_mem_parts)
  | array element size =>
      rw [QualType.parts] at hparts
      rw [List.mem_singleton.mp hs]
      exact hparts (List.mem_cons_of_mem _ element.self_mem_parts)
  | _ =>
      obtain ⟨field, hfield, rfl⟩ := List.mem_map.mp hs
      exact mem_closure_of_mem_fieldsOf hfield

theorem stripped_mem_parts (t : QualType) : t.stripped ∈ t.parts := by
  induction t using QualType.stripped.induct with
  | case1 quals pointee ih =>
      rw [QualType.stripped, QualType.parts]
      exact List.mem_cons_of_mem _ ih
  | case2 element size ih =>
      rw [QualType.stripped, QualType.parts]
      exact List.mem_cons_of_mem _ ih
  | case3 t hpointer harray =>
      have hself : t.stripped = t := by
        cases t with
        | pointer quals pointee => exact absurd rfl (hpointer quals pointee)
        | array element size => exact absurd rfl (harray element size)
        | _ => rfl
      exact hself.symm ▸ t.self_mem_parts

/-! ## Enough fuel -/

namespace TLC

variable {getAsString : QualType → Str} {tu : TranslationUnit} {config : ThunkConfig}

/-- From some amount of fuel on, a computation has a result. -/
def Ends {α : Type*} (f : Nat → Option α) : Prop :=
  ∃ fuel, ∀ fuel' ≥ fuel, (f fuel').isSome = true

theorem ends_walk {α κ : Type*} [DecidableEq κ] (key : α → κ) (next : α → List α) (P : α → Prop)
    (keys : List κ) (hkey : ∀ a, P a → key a ∈ keys) (hnext : ∀ a, P a → ∀ b ∈ next a, P b)
    (stack : List α) (hstack : ∀ a ∈ stack, P a) :
    Ends fun fuel => walk key next fuel stack [] := by
  obtain ⟨fuel, out, hwalk⟩ := exists_walk P keys hkey hnext stack [] hstack
  refine ⟨fuel, fun fuel' hle => ?_⟩
  dsimp only
  rw [walk_mono hwalk hle]
  rfl

/-! ### stat -/

theorem ends_items (getAsString : QualType → Str) (records : List RecordDecl) (call : CollectCall) :
    Ends fun fuel => call.items getAsString records fuel := by
  let types := closure records (call.stack.map Prod.fst)
  refine ends_walk _ _ (fun item : StackItem => item.1 ∈ types)
    (types.map (getTypeString getAsString)) (fun item hitem => List.mem_map_of_mem hitem)
    (fun item hitem next hnext => ?_) _ fun item hitem => ?_
  · refine successors_subset_closure hitem ?_
    rw [← map_fst_stackItems]
    exact List.mem_map_of_mem hnext
  · exact List.mem_append_left _
      (QualType.mem_partsOf.mpr ⟨item.1, List.mem_map_of_mem hitem, item.1.self_mem_parts⟩)

/-- With enough fuel, stat finishes. -/
theorem exists_stat (getAsString : QualType → Str) (tu : TranslationUnit) (config : ThunkConfig) :
    Ends fun fuel => stat getAsString tu config fuel := by
  have hcalls : ∀ calls : List CollectCall, ∃ fuel, ∀ fuel' ≥ fuel, ∀ callbacks,
      (calls.foldlM (collectCallbackSignatures getAsString tu.records fuel') callbacks).isSome =
        true := by
    intro calls
    induction calls with
    | nil => exact ⟨0, fun _ _ _ => rfl⟩
    | cons call calls ih =>
        obtain ⟨n, hn⟩ := ends_items getAsString tu.records call
        obtain ⟨m, hm⟩ := ih
        refine ⟨max n m, fun fuel hle callbacks => ?_⟩
        obtain ⟨items, hitems⟩ := Option.isSome_iff_exists.mp (hn fuel (le_of_max_le_left hle))
        dsimp only at hitems
        rw [List.foldlM_cons, collectCallbackSignatures, hitems]
        exact hm fuel (le_of_max_le_right hle) _
  obtain ⟨fuel, hfuel⟩ := hcalls (collectCalls getAsString tu config)
  exact ⟨fuel, fun fuel' hle => hfuel fuel' hle []⟩

/-! ### Trees -/

theorem ends_containsFunctionPointer (getAsString : QualType → Str) (records : List RecordDecl)
    (t : QualType) :
    Ends fun fuel => containsFunctionPointer getAsString records fuel t := by
  let types := closure records [t]
  have hkey : ∀ s, s ∈ types →
      getTypeString getAsString s.stripped ∈ types.map (getTypeString getAsString) :=
    fun s hs => List.mem_map_of_mem (parts_subset_closure hs (stripped_mem_parts s))
  have hnext : ∀ s, s ∈ types → ∀ s' ∈ (fieldsOf records s.stripped).map Prod.snd, s' ∈ types := by
    intro s _ s' hs'
    obtain ⟨field, hfield, rfl⟩ := List.mem_map.mp hs'
    exact mem_closure_of_mem_fieldsOf hfield
  have hseed : ∀ s ∈ [t], s ∈ types := by
    intro s hs
    rw [List.mem_singleton.mp hs]
    exact List.mem_append_left _ (QualType.mem_partsOf.mpr ⟨t, by simp, t.self_mem_parts⟩)
  obtain ⟨fuel, hfuel⟩ := ends_walk _ _ (· ∈ types) _ hkey hnext [t] hseed
  refine ⟨fuel, fun fuel' hle => ?_⟩
  dsimp only
  rw [containsFunctionPointer, Option.isSome_map]
  exact hfuel fuel' hle

theorem ends_hasUnsupportedShape (getAsString : QualType → Str) (records : List RecordDecl)
    (t : QualType) :
    Ends fun fuel => hasUnsupportedShape getAsString records fuel t := by
  cases hpart : closedPart t with
  | none =>
      refine ⟨0, fun fuel _ => ?_⟩
      dsimp only
      rw [hasUnsupportedShape, hpart]
      rfl
  | some part =>
      obtain ⟨fuel, hfuel⟩ := ends_containsFunctionPointer getAsString records part
      refine ⟨fuel, fun fuel' hle => ?_⟩
      dsimp only
      rw [hasUnsupportedShape, hpart]
      exact hfuel fuel' hle

/-- The loop over fields ends if it ends for the tree of every field that is not on the
path. -/
theorem ends_buildFields (records : List RecordDecl)
    (mk : Nat → QualType → List Str → Option CallbackTree) (visited : List Str)
    (fields : List (String × QualType))
    (hmk : ∀ field ∈ fields, getTypeString getAsString field.2 ∉ visited →
      Ends fun fuel => mk fuel field.2 (getTypeString getAsString field.2 :: visited)) :
    ∃ fuel, ∀ fuel' ≥ fuel, ∀ callbacks children,
      (buildFields getAsString records (mk fuel') fuel' visited fields callbacks children).isSome =
        true := by
  induction fields with
  | nil => exact ⟨0, fun _ _ _ _ => rfl⟩
  | cons field fields ih =>
      obtain ⟨name, type⟩ := field
      obtain ⟨n, hn⟩ := ih fun field hfield => hmk field (List.mem_cons_of_mem _ hfield)
      obtain ⟨m, hm⟩ := ends_containsFunctionPointer getAsString records type
      cases hcallee : type.callee? with
      | some callee =>
          refine ⟨n, fun fuel hle callbacks children => ?_⟩
          rw [buildFields, hcallee]
          exact hn fuel hle _ _
      | none =>
          by_cases hvisited : getTypeString getAsString type ∈ visited
          · refine ⟨max n m, fun fuel hle callbacks children => ?_⟩
            obtain ⟨carries, hcarries⟩ :=
              Option.isSome_iff_exists.mp (hm fuel (le_of_max_le_right hle))
            dsimp only at hcarries
            rw [buildFields, hcallee]
            dsimp only
            rw [if_pos hvisited, hcarries, Option.bind_some]
            cases carries with
            | true => rfl
            | false => exact hn fuel (le_of_max_le_left hle) _ _
          · obtain ⟨k, hk⟩ := hmk _ List.mem_cons_self hvisited
            refine ⟨max n k, fun fuel hle callbacks children => ?_⟩
            obtain ⟨child, hchild⟩ := Option.isSome_iff_exists.mp (hk fuel (le_of_max_le_right hle))
            dsimp only at hchild
            rw [buildFields, hcallee]
            dsimp only
            rw [if_neg hvisited, hchild, Option.bind_some]
            split
            · rfl
            · exact hn fuel (le_of_max_le_left hle) _ _
            · exact hn fuel (le_of_max_le_left hle) _ _

/-- The tree of every type is built: each level puts one more spelling on the path. -/
theorem ends_build (getAsString : QualType → Str) (records : List RecordDecl) (t : QualType)
    (visited : List Str) :
    Ends fun fuel => build getAsString records fuel t visited := by
  let keys := (fieldParts records).map (getTypeString getAsString)
  induction hn : (keys.filter (· ∉ visited)).length using Nat.strongRecOn
      generalizing t visited with
  | ind n ih =>
      obtain ⟨m, hm⟩ := ends_hasUnsupportedShape getAsString records t
      have hfields : ∀ field ∈ fieldsOf records (peelPointer t).2,
          getTypeString getAsString field.2 ∉ visited → Ends fun fuel =>
            build getAsString records fuel field.2
              (getTypeString getAsString field.2 :: visited) := by
        intro field hfield hnew
        refine ih _ ?_ _ _ rfl
        obtain ⟨r, hr, hmem⟩ := exists_record_of_mem_fieldsOf hfield
        rw [← hn]
        have hkey : getTypeString getAsString field.2 ∈ keys :=
          List.mem_map_of_mem (parts_subset_fieldParts hr hmem field.2.self_mem_parts)
        convert length_filter_notMem_lt hnew hkey
      obtain ⟨k, hk⟩ := ends_buildFields records (build getAsString records) visited _ hfields
      refine ⟨max m k + 1, fun fuel hle => ?_⟩
      obtain ⟨fuel, rfl⟩ : ∃ f, fuel = f + 1 := ⟨fuel - 1, by omega⟩
      have hle' : fuel ≥ max m k := by omega
      obtain ⟨bad, hbad⟩ := Option.isSome_iff_exists.mp (hm fuel (le_of_max_le_left hle'))
      dsimp only at hbad ⊢
      rw [build, hbad, Option.bind_some]
      split
      · rfl
      · split
        · rfl
        · rw [Option.isSome_map]
          exact hk fuel (le_of_max_le_right hle') _ _

theorem ends_argumentTree (getAsString : QualType → Str) (records : List RecordDecl)
    (args : List (QualType × String)) :
    ∃ fuel, ∀ fuel' ≥ fuel, ∀ cache callbacks children outCallbacks,
      (argumentTree getAsString records fuel' args cache callbacks children outCallbacks).isSome =
        true := by
  induction args with
  | nil => exact ⟨0, fun _ _ _ _ _ _ => rfl⟩
  | cons arg args ih =>
      obtain ⟨type, name⟩ := arg
      obtain ⟨n, hn⟩ := ih
      obtain ⟨m, hm⟩ := ends_build getAsString records type []
      refine ⟨max n m, fun fuel hle cache callbacks children outCallbacks => ?_⟩
      have hrest := hn fuel (le_of_max_le_left hle)
      rw [argumentTree]
      split
      · exact hrest _ _ _ _
      · split
        · exact hrest _ _ _ _
        · have hcached : (cachedTree getAsString records fuel cache type).isSome = true := by
            rw [cachedTree]
            split
            · rfl
            · rw [Option.isSome_map]
              exact hm fuel (le_of_max_le_right hle)
          obtain ⟨⟨cache', tree⟩, hcached⟩ := Option.isSome_iff_exists.mp hcached
          rw [hcached, Option.bind_some]
          dsimp only
          split
          · rfl
          · exact hrest _ _ _ _
          · exact hrest _ _ _ _

/-- With enough fuel, all trees are built. -/
theorem exists_argumentTrees (getAsString : QualType → Str) (tu : TranslationUnit)
    (snippets : List ProcSnippet) : ∃ fuel, ∀ fuel' ≥ fuel, ∀ cache,
      (argumentTrees getAsString tu fuel' snippets cache).isSome = true := by
  induction snippets with
  | nil => exact ⟨0, fun _ _ _ => rfl⟩
  | cons proc snippets ih =>
      obtain ⟨n, hn⟩ := ih
      obtain ⟨m, hm⟩ := ends_argumentTree getAsString tu.records
        (((proc.realFunctionTypeView.map FunctionTypeView.argTypes).getD []).mapIdx
          fun i type => (type, "arg" ++ toString (i + 1)))
      refine ⟨max n m, fun fuel hle cache => ?_⟩
      obtain ⟨⟨cache', tree⟩, htree⟩ := Option.isSome_iff_exists.mp
        (hm fuel (le_of_max_le_right hle) cache [] [] [])
      rw [argumentTrees, buildArgumentTree, htree, Option.bind_some]
      dsimp only
      rw [Option.isSome_map]
      exact hn fuel (le_of_max_le_left hle) cache'

end TLC

end Lorelei
