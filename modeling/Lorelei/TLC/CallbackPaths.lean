import Lorelei.TLC.WalksEnd

/-!
# Where function pointers stand in a type

A function pointer inside a type is found along fields and behind single pointers. Its
place is the positions of the fields on the way to it, its path their names. The other ways
to a function pointer, through double pointers, arrays, unions and cycles, are those that
make a tree unsupported (`Unmarshallable`).
-/

namespace Lorelei.TLC

open Support Worklist

namespace CallbackTree

mutual

/-- The callbacks of a tree, each with the path of member names that leads to it; those of
the children come first. -/
def entries : CallbackTree → List (List String × QualType)
  | .node _ _ callbacks children _ =>
      entriesOf children ++ callbacks.map fun (name, callee) => ([name], callee)

def entriesOf : List (String × CallbackTree) → List (List String × QualType)
  | [] => []
  | (name, child) :: children =>
      child.entries.map (fun (path, callee) => (name :: path, callee)) ++ entriesOf children

end

/-- The callbacks of a member, with the member in their paths. -/
abbrev entriesAt (member : String × CallbackTree) : List (List String × QualType) :=
  member.2.entries.map fun (path, callee) => (member.1 :: path, callee)

theorem entriesOf_eq_flatMap (children : List (String × CallbackTree)) :
    entriesOf children = children.flatMap entriesAt := by
  induction children with
  | nil => rfl
  | cons child children ih => rw [entriesOf, ih, List.flatMap_cons]

@[simp] theorem entries_noCallbacks : noCallbacks.entries = [] := rfl

end CallbackTree

/-! ## Places -/

/-- The fields of the record that a type is, or points to. -/
def fieldsBehind (records : List RecordDecl) (t : QualType) : List (String × QualType) :=
  fieldsOf records (peelPointer t).2

/-- The function pointer at a place of a type: its path and the function type behind it. -/
def pointerAt (records : List RecordDecl) : QualType → List Nat → Option (List String × QualType)
  | _, [] => none
  | t, i :: place =>
      (fieldsBehind records t)[i]?.bind fun (name, type) =>
        match place, type.callee? with
        | [], some callee => some ([name], callee)
        | _, _ => (pointerAt records type place).map fun (path, callee) => (name :: path, callee)

/-- Some function pointer is found in a type along fields and single pointers. -/
def HasPointers (records : List RecordDecl) (t : QualType) : Prop :=
  ∃ place, (pointerAt records t place).isSome = true

/-- A tree has every function pointer of a type exactly once, at its path. -/
def Complete (records : List RecordDecl) (t : QualType) (tree : CallbackTree) : Prop :=
  ∃ pointers : List (List Nat × List String × QualType), (pointers.map Prod.fst).Nodup ∧
    (∀ place label, (place, label) ∈ pointers ↔ pointerAt records t place = some label) ∧
      (pointers.map Prod.snd).Perm tree.entries

/-! ## Ways through a type -/

/-- One step along a field. -/
def StepsTo (records : List RecordDecl) (t t' : QualType) : Prop :=
  ∃ name, (name, t') ∈ fieldsBehind records t

/-- The way along fields and single pointers. -/
abbrev Opens (records : List RecordDecl) : QualType → QualType → Prop :=
  Relation.ReflTransGen (StepsTo records)

/-- The types of the fields behind all pointers and arrays. -/
def strippedFields (records : List RecordDecl) (t : QualType) : List QualType :=
  (fieldsOf records t.stripped).map Prod.snd

/-- A function pointer, or a function, is found in a type on any way. -/
def Contains (records : List RecordDecl) (t : QualType) : Prop :=
  ∃ t', Reaches (strippedFields records) t t' ∧ t'.stripped.isFunctionType = true

/-- A type leads to a function pointer behind a double pointer, in an array or in a union,
or it leads to a type with a function pointer that leads back to itself. -/
def Unmarshallable (records : List RecordDecl) (t : QualType) : Prop :=
  ∃ t', Opens records t t' ∧ ((∃ part, closedPart t' = some part ∧ Contains records part) ∨
    (Contains records t' ∧ Relation.TransGen (StepsTo records) t' t'))

/-- Two fields are kept under one name in one map. -/
def Clash (records : List RecordDecl) (f g : String × QualType) : Prop :=
  f.1 = g.1 ∧ ((f.2.callee?.isSome = true ∧ g.2.callee?.isSome = true) ∨
    (HasPointers records f.2 ∧ HasPointers records g.2))

/-- In no record that a type leads to do two callbacks, or two members that hold
callbacks, have the same name. -/
def MembersApart (records : List RecordDecl) (t : QualType) : Prop :=
  ∀ t', Opens records t t' → (fieldsBehind records t').Pairwise fun f g => ¬ Clash records f g

/-- Types inside a type that are spelled alike are the same, unless they hold no function
pointer. -/
def SpelledApart (getAsString : QualType → Str) (records : List RecordDecl) (t : QualType) : Prop :=
  ∀ s s', s ∈ closure records [t] → s' ∈ closure records [t] →
    getTypeString getAsString s = getTypeString getAsString s' → Contains records s → s = s'

variable {getAsString : QualType → Str} {records : List RecordDecl} {t t' : QualType}

/-! ### Types that open nothing -/

theorem stripped_of_peelPointer (h : (peelPointer t).2.isRecordType = true) :
    t.stripped = (peelPointer t).2 := by
  cases t with
  | pointer quals pointee =>
      cases pointee with
      | tag _ _ _ => rfl
      | _ => exact nomatch h
  | tag _ _ _ => rfl
  | _ => exact nomatch h

theorem isRecordType_of_mem_fieldsOf {field : String × QualType} (h : field ∈ fieldsOf records t) :
    t.isRecordType = true := by
  cases t with
  | tag quals kind name =>
      cases kind with
      | enum => exact absurd h List.not_mem_nil
      | _ => rfl
  | _ => exact absurd h List.not_mem_nil

theorem fieldsBehind_of_callee? (h : t.callee?.isSome = true) : fieldsBehind records t = [] := by
  obtain ⟨c, hc⟩ := Option.isSome_iff_exists.mp h
  obtain ⟨quals, rfl, hfun⟩ := QualType.callee?_eq_some.mp hc
  cases c with
  | functionProto _ _ _ => rfl
  | functionNoProto _ => rfl
  | _ => exact nomatch hfun

theorem StepsTo.mem_strippedFields (h : StepsTo records t t') : t' ∈ strippedFields records t := by
  obtain ⟨name, hmem⟩ := h
  rw [strippedFields, stripped_of_peelPointer (isRecordType_of_mem_fieldsOf hmem)]
  exact List.mem_map_of_mem hmem

theorem StepsTo.callee? (h : StepsTo records t t') : t.callee? = none := by
  obtain ⟨name, hmem⟩ := h
  cases hc : t.callee? with
  | none => rfl
  | some c =>
      rw [fieldsBehind_of_callee? (hc ▸ rfl)] at hmem
      exact absurd hmem List.not_mem_nil

/-! ### What a type contains -/

theorem stripped_stripped (t : QualType) : t.stripped.stripped = t.stripped := by
  induction t using QualType.stripped.induct with
  | case1 quals pointee ih => exact ih
  | case2 element size ih => exact ih
  | case3 t hpointer harray => cases t <;> first | rfl | simp_all

theorem contains_iff_stripped : Contains records t ↔
    t.stripped.isFunctionType = true ∨ ∃ t' ∈ strippedFields records t, Contains records t' := by
  constructor
  · rintro ⟨u, hreach, hfun⟩
    rcases hreach.cases_head with rfl | ⟨t', ht', hreach⟩
    · exact .inl hfun
    · exact .inr ⟨t', ht', u, hreach, hfun⟩
  · rintro (hfun | ⟨t', ht', u, hreach, hfun⟩)
    · exact ⟨t, .refl, hfun⟩
    · exact ⟨u, .head ht' hreach, hfun⟩

theorem contains_congr (h : t.stripped = t'.stripped) :
    Contains records t ↔ Contains records t' := by
  rw [contains_iff_stripped, contains_iff_stripped, strippedFields, strippedFields, h]

theorem Contains.of_opens (hopens : Opens records t t') (h : Contains records t') :
    Contains records t := by
  induction hopens using Relation.ReflTransGen.head_induction_on with
  | refl => exact h
  | head hstep _ ih => exact contains_iff_stripped.mpr (.inr ⟨_, hstep.mem_strippedFields, ih⟩)

theorem contains_of_callee? (h : t.callee?.isSome = true) : Contains records t := by
  obtain ⟨c, hc⟩ := Option.isSome_iff_exists.mp h
  obtain ⟨quals, rfl, hfun⟩ := QualType.callee?_eq_some.mp hc
  refine contains_iff_stripped.mpr (.inl ?_)
  cases c with
  | functionProto _ _ _ => rfl
  | functionNoProto _ => rfl
  | _ => exact nomatch hfun

theorem stripped_of_closedPart {part : QualType} (h : closedPart t = some part) :
    part.stripped = t.stripped := by
  cases t with
  | pointer quals pointee =>
      cases pointee with
      | pointer _ _ => cases h; rfl
      | array _ _ => cases h; rfl
      | tag _ kind _ => cases kind <;> cases h; rfl
      | _ => exact nomatch h
  | array _ _ => cases h; rfl
  | tag _ kind _ => cases kind <;> cases h; rfl
  | _ => exact nomatch h

theorem callee?_of_closedPart {part : QualType} (h : closedPart t = some part) :
    t.callee? = none := by
  cases t with
  | pointer quals pointee =>
      cases pointee with
      | functionProto _ _ _ => exact nomatch h
      | functionNoProto _ => exact nomatch h
      | _ => rfl
  | _ => rfl

theorem mem_closure_of_closedPart {part : QualType} (h : closedPart t = some part) :
    part ∈ t.parts := by
  cases t with
  | pointer quals pointee =>
      cases pointee with
      | pointer _ _ => cases h; simp [QualType.parts, QualType.self_mem_parts]
      | array _ _ => cases h; simp [QualType.parts, QualType.self_mem_parts]
      | tag _ kind _ => cases kind <;> cases h; simp [QualType.parts]
      | _ => exact nomatch h
  | array _ _ => cases h; simp [QualType.parts, QualType.self_mem_parts]
  | tag _ kind _ => cases kind <;> cases h; simp [QualType.parts]
  | _ => exact nomatch h

/-! ### Function pointers at places -/

theorem pointerAt_cons {i : Nat} {place : List Nat} {label : List String × QualType} :
    pointerAt records t (i :: place) = some label ↔ ∃ name type,
      (fieldsBehind records t)[i]? = some (name, type) ∧
        ((place = [] ∧ ∃ callee, type.callee? = some callee ∧ label = ([name], callee)) ∨
          ∃ path callee, pointerAt records type place = some (path, callee) ∧
            label = (name :: path, callee)) := by
  rw [pointerAt, Option.bind_eq_some_iff]
  constructor
  · rintro ⟨⟨name, type⟩, hfield, h⟩
    refine ⟨name, type, hfield, ?_⟩
    dsimp only at h
    split at h
    next callee hcallee => exact .inl ⟨rfl, callee, hcallee, (Option.some.inj h).symm⟩
    next =>
      obtain ⟨⟨path, callee⟩, hrest, rfl⟩ := Option.map_eq_some_iff.mp h
      exact .inr ⟨path, callee, hrest, rfl⟩
  · rintro ⟨name, type, hfield, ⟨rfl, callee, hcallee, rfl⟩ | ⟨path, callee, hrest, rfl⟩⟩
    · refine ⟨_, hfield, ?_⟩
      dsimp only
      rw [hcallee]
    · refine ⟨_, hfield, ?_⟩
      cases place with
      | nil => exact nomatch hrest
      | cons j place => exact Option.map_eq_some_iff.mpr ⟨_, hrest, rfl⟩

theorem contains_of_pointerAt {place : List Nat} {label : List String × QualType}
    (h : pointerAt records t place = some label) : Contains records t := by
  induction place generalizing t label with
  | nil => exact nomatch h
  | cons i place ih =>
      obtain ⟨name, type, hfield, h⟩ := pointerAt_cons.mp h
      have hstep : StepsTo records t type := ⟨name, List.mem_of_getElem? hfield⟩
      refine Contains.of_opens (.single hstep) ?_
      rcases h with ⟨-, callee, hcallee, -⟩ | ⟨path, callee, hrest, -⟩
      · exact contains_of_callee? (hcallee ▸ rfl)
      · exact ih hrest

theorem callee?_of_pointerAt {place : List Nat} {label : List String × QualType}
    (h : pointerAt records t place = some label) : t.callee? = none := by
  cases place with
  | nil => exact nomatch h
  | cons i place =>
      obtain ⟨name, type, hfield, -⟩ := pointerAt_cons.mp h
      exact StepsTo.callee? ⟨name, List.mem_of_getElem? hfield⟩

theorem HasPointers.contains (h : HasPointers records t) : Contains records t := by
  obtain ⟨place, h⟩ := h
  obtain ⟨label, h⟩ := Option.isSome_iff_exists.mp h
  exact contains_of_pointerAt h

theorem HasPointers.of_step (hstep : StepsTo records t t')
    (h : t'.callee?.isSome = true ∨ HasPointers records t') : HasPointers records t := by
  obtain ⟨name, hmem⟩ := hstep
  obtain ⟨i, hi⟩ := List.mem_iff_getElem?.mp hmem
  rcases h with h | ⟨place, h⟩
  · obtain ⟨callee, hcallee⟩ := Option.isSome_iff_exists.mp h
    exact ⟨[i], Option.isSome_iff_exists.mpr
      ⟨_, pointerAt_cons.mpr ⟨_, _, hi, .inl ⟨rfl, callee, hcallee, rfl⟩⟩⟩⟩
  · obtain ⟨⟨path, callee⟩, h⟩ := Option.isSome_iff_exists.mp h
    exact ⟨i :: place, Option.isSome_iff_exists.mpr
      ⟨_, pointerAt_cons.mpr ⟨_, _, hi, .inr ⟨path, callee, h, rfl⟩⟩⟩⟩

theorem HasPointers.of_opens (hopens : Opens records t t') (h : HasPointers records t') :
    HasPointers records t := by
  induction hopens using Relation.ReflTransGen.head_induction_on with
  | refl => exact h
  | head hstep _ ih => exact .of_step hstep (.inr ih)

/-! ### Names -/

/-- Where no function pointer is found, no names clash. -/
theorem membersApart_of_not_hasPointers (h : ¬ HasPointers records t) : MembersApart records t := by
  intro t' hopens
  refine List.pairwise_of_forall_mem_list fun f hf g hg hclash => h ?_
  refine .of_opens hopens (.of_step ⟨f.1, hf⟩ ?_)
  rcases hclash with ⟨-, ⟨hf, -⟩ | ⟨hf, -⟩⟩
  · exact .inl hf
  · exact .inr hf

theorem membersApart_iff : MembersApart records t ↔
    (fieldsBehind records t).Pairwise (fun f g => ¬ Clash records f g) ∧
      ∀ field ∈ fieldsBehind records t, MembersApart records field.2 := by
  constructor
  · intro h
    exact ⟨h t .refl, fun field hfield t' hopens => h t' (.head ⟨field.1, hfield⟩ hopens)⟩
  · rintro ⟨hself, hfields⟩ t' hopens
    rcases hopens.cases_head with rfl | ⟨type, ⟨name, hmem⟩, hopens⟩
    · exact hself
    · exact hfields _ hmem t' hopens

/-! ## containsFunctionPointer -/

theorem mem_closure_of_strippedFields {types : List QualType} (h : t' ∈ strippedFields records t) :
    t' ∈ closure records types := by
  obtain ⟨field, hfield, rfl⟩ := List.mem_map.mp h
  exact mem_closure_of_mem_fieldsOf hfield

theorem mem_closure_of_reaches (h : Reaches (strippedFields records) t t') :
    t' ∈ closure records [t] := by
  rcases h.cases_tail with rfl | ⟨u, -, hu⟩
  · exact List.mem_append_left _ (QualType.mem_partsOf.mpr ⟨_, by simp, QualType.self_mem_parts _⟩)
  · exact mem_closure_of_strippedFields hu

theorem closure_subset {types : List QualType} (h : t ∈ closure records types) :
    closure records [t] ⊆ closure records types := by
  intro s hs
  rcases List.mem_append.mp hs with hs | hs
  · obtain ⟨u, hu, hs⟩ := QualType.mem_partsOf.mp hs
    rw [List.mem_singleton.mp hu] at hs
    exact parts_subset_closure h hs
  · exact List.mem_append_right _ hs

theorem SpelledApart.mono (hspell : SpelledApart getAsString records t)
    (h : t' ∈ closure records [t]) : SpelledApart getAsString records t' := by
  intro s s' hs hs'
  exact hspell s s' (closure_subset h hs) (closure_subset h hs')

/-- `containsFunctionPointer` finds a function pointer if there is one. -/
theorem containsFunctionPointer_iff (hspell : SpelledApart getAsString records t) {fuel : Nat}
    {found : Bool} (h : containsFunctionPointer getAsString records fuel t = some found) :
    found = true ↔ Contains records t := by
  rw [containsFunctionPointer] at h
  obtain ⟨types, hwalk, rfl⟩ := Option.map_eq_some_iff.mp h
  have hin : ∀ u, Reaches (strippedFields records) t u → u.stripped ∈ closure records [t] :=
    fun u hu => parts_subset_closure (mem_closure_of_reaches hu) (stripped_mem_parts u)
  have hfound : ∀ d ∈ types, Reaches (strippedFields records) t d := by
    intro d hd
    obtain ⟨a, ha, hreach⟩ := reaches_of_mem hwalk hd
    rw [List.mem_singleton.mp ha] at hreach
    exact hreach
  rw [List.any_eq_true]
  constructor
  · rintro ⟨u, hu, hfun⟩
    exact ⟨u, hfound u hu, hfun⟩
  · rintro ⟨u, hreach, hfun⟩
    -- what is spelled like a type that leads to the function is that type
    have hsame : ∀ c d,
        Reaches (strippedFields records) t c → Reaches (strippedFields records) c u →
        d ∈ types → getTypeString getAsString d.stripped = getTypeString getAsString c.stripped →
          d.stripped = c.stripped := by
      intro c d htc hcu hd heq
      have hcontains : Contains records c.stripped :=
        (contains_congr (stripped_stripped c)).mpr ⟨u, hcu, hfun⟩
      exact (hspell _ _ (hin c htc) (hin d (hfound d hd)) heq.symm hcontains).symm
    have hmem := mem_of_reaches hwalk List.mem_cons_self (fun c d htc hcu hd heq c' hc' =>
      ⟨c', by
        show c' ∈ strippedFields records d
        rw [strippedFields, hsame c d htc hcu hd heq]
        exact hc', rfl⟩) hreach
    obtain ⟨d, hd, heq⟩ := List.mem_map.mp hmem
    exact ⟨d, hd, hsame u d hreach .refl hd heq ▸ hfun⟩

/-- The shape of a type is unsupported if the part that may hold no callback holds one. -/
theorem hasUnsupportedShape_iff (hspell : SpelledApart getAsString records t) {fuel : Nat}
    {bad : Bool} (h : hasUnsupportedShape getAsString records fuel t = some bad) :
    bad = true ↔ ∃ part, closedPart t = some part ∧ Contains records part := by
  rw [hasUnsupportedShape] at h
  split at h
  next part hpart =>
    have hin : part ∈ closure records [t] := List.mem_append_left _ (QualType.mem_partsOf.mpr
      ⟨t, List.mem_singleton_self t, mem_closure_of_closedPart hpart⟩)
    rw [containsFunctionPointer_iff (hspell.mono hin) h]
    simp [hpart]
  next hpart =>
    cases h
    simp [hpart]

end Lorelei.TLC
