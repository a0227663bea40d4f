import Lorelei.TLC.Stat

/-!
# What stat registers

Stat registers the spelling of every function pointer type that the seeds of its config
lead to, and no other (`mem_stat_iff`), provided that types which are spelled alike are
the same as far as function pointers are concerned.
-/

namespace Lorelei.TLC

open Support Worklist

variable {getAsString : QualType → Str} {tu : TranslationUnit} {config : ThunkConfig}
  {records : List RecordDecl} {fuel : Nat} {call : CollectCall}
  {callbacks infos : List CallbackInfo}
  {signature : String} {t t' : QualType}

/-! ## Summaries -/

@[simp] theorem mem_addCallbackSignature {origin preferredAlias s : String} :
    s ∈ (addCallbackSignature callbacks signature origin preferredAlias).map
      CallbackInfo.signature ↔ s = signature ∨ s ∈ callbacks.map CallbackInfo.signature := by
  apply SortedMap.mem_map_key_alter
  intro o
  rfl

theorem sorted_addCallbackSignature {origin preferredAlias : String}
    (h : SortedMap.Sorted CallbackInfo.signature callbacks) :
    SortedMap.Sorted CallbackInfo.signature
      (addCallbackSignature callbacks signature origin preferredAlias) := by
  apply SortedMap.sorted_alter _ h
  intro o
  rfl

/-- One call adds the spellings of the function pointers among its items. -/
theorem mem_collectCallbackSignatures {items : List StackItem}
    (hitems : call.items getAsString records fuel = some items)
    (h : collectCallbackSignatures getAsString records fuel callbacks call = some infos) :
    signature ∈ infos.map CallbackInfo.signature ↔
      (∃ item ∈ items, item.1.isFunctionPointerType = true ∧
        signature = String.ofList (getTypeString getAsString item.1)) ∨
      signature ∈ callbacks.map CallbackInfo.signature := by
  rw [collectCallbackSignatures, hitems, Option.map_some] at h
  obtain rfl := Option.some.inj h
  have hfold : ∀ (l : List StackItem) (cbs : List CallbackInfo),
      signature ∈ (l.foldl (fun callbacks item => addCallbackSignature callbacks
        (String.ofList (getTypeString getAsString item.1)) item.2
        (call.aliasOf getAsString item)) cbs).map CallbackInfo.signature ↔
      (∃ item ∈ l, signature = String.ofList (getTypeString getAsString item.1)) ∨
        signature ∈ cbs.map CallbackInfo.signature := by
    intro l
    induction l with
    | nil => simp
    | cons item l ih =>
        intro cbs
        rw [List.foldl_cons, ih, mem_addCallbackSignature]
        simp only [List.mem_cons, exists_eq_or_imp]
        rw [or_left_comm, or_assoc]
  rw [hfold]
  simp only [List.mem_filter, and_assoc]

/-- A run registers what its calls register. -/
theorem mem_foldlM_collect {calls : List CollectCall}
    (h : calls.foldlM (collectCallbackSignatures getAsString records fuel) callbacks = some infos) :
    signature ∈ infos.map CallbackInfo.signature ↔
      (∃ call ∈ calls, ∃ items, call.items getAsString records fuel = some items ∧
        ∃ item ∈ items, item.1.isFunctionPointerType = true ∧
          signature = String.ofList (getTypeString getAsString item.1)) ∨
      signature ∈ callbacks.map CallbackInfo.signature := by
  induction calls generalizing callbacks with
  | nil =>
      rw [List.foldlM_nil] at h
      obtain rfl := Option.some.inj h
      simp
  | cons call calls ih =>
      rw [List.foldlM_cons] at h
      obtain ⟨cbs, hcall, hrest⟩ := Option.bind_eq_some_iff.mp h
      obtain ⟨items, hitems, -⟩ := Option.map_eq_some_iff.mp hcall
      rw [ih hrest, mem_collectCallbackSignatures hitems hcall]
      constructor
      · rintro (⟨c, hc, hex⟩ | hex | hmem)
        · exact .inl ⟨c, List.mem_cons_of_mem _ hc, hex⟩
        · exact .inl ⟨call, List.mem_cons_self, items, hitems, hex⟩
        · exact .inr hmem
      · rintro (⟨c, hc, items', hitems', hex⟩ | hmem)
        · rcases List.mem_cons.mp hc with rfl | hc
          · cases hitems.symm.trans hitems'
            exact .inr (.inl hex)
          · exact .inl ⟨c, hc, items', hitems', hex⟩
        · exact .inr (.inr hmem)

theorem sorted_collectCallbackSignatures
    (hsorted : SortedMap.Sorted CallbackInfo.signature callbacks)
    (h : collectCallbackSignatures getAsString records fuel callbacks call = some infos) :
    SortedMap.Sorted CallbackInfo.signature infos := by
  obtain ⟨items, -, rfl⟩ := Option.map_eq_some_iff.mp h
  clear h
  generalize items.filter _ = l
  induction l generalizing callbacks with
  | nil => exact hsorted
  | cons item l ih => exact ih (sorted_addCallbackSignature hsorted)

/-- The summary is in the order of its signatures. -/
theorem sorted_stat (h : stat getAsString tu config fuel = some infos) :
    SortedMap.Sorted CallbackInfo.signature infos := by
  rw [stat] at h
  have hnil : SortedMap.Sorted CallbackInfo.signature ([] : List CallbackInfo) := .nil
  generalize ([] : List CallbackInfo) = callbacks at h hnil
  generalize collectCalls getAsString tu config = calls at h
  induction calls generalizing callbacks with
  | nil =>
      rw [List.foldlM_nil] at h
      exact Option.some.inj h ▸ hnil
  | cons call calls ih =>
      rw [List.foldlM_cons] at h
      obtain ⟨cbs, hcall, hrest⟩ := Option.bind_eq_some_iff.mp h
      exact ih _ (sorted_collectCallbackSignatures hnil hcall) hrest

/-! ## Types and items -/

/-- One type leads to another. -/
abbrev Leads (records : List RecordDecl) (t t' : QualType) : Prop :=
  Reaches (successors records) t t'

theorem map_fst_signatureItems (origin : String) (t : QualType) :
    (signatureItems origin t).map Prod.fst = signatureTypes t := by
  cases t with
  | functionProto returnType paramTypes isVariadic =>
      rw [signatureItems, signatureTypes, List.map_append]
      congr 1
      · split <;> rfl
      · apply List.ext_getElem
        · simp
        · intro i h h'
          simp
  | functionNoProto returnType =>
      rw [signatureItems, signatureTypes]
      split <;> rfl
  | _ => rfl

/-- The stack holds types with their origins. -/
theorem map_fst_stackItems (records : List RecordDecl) (item : StackItem) :
    (stackItems records item).map Prod.fst = successors records item.1 := by
  obtain ⟨t, origin⟩ := item
  cases t with
  | pointer quals pointee =>
      rw [stackItems, successors]
      split
      · exact map_fst_signatureItems origin pointee
      · rfl
  | array element size => rfl
  | _ => simp [stackItems, successors, Function.comp_def]

/-- Items lead to each other as their types do. -/
theorem leads_of_reaches {item item' : StackItem} (h : Reaches (stackItems records) item item') :
    Leads records item.1 item'.1 := by
  induction h with
  | refl => exact .refl
  | tail _ hnext ih =>
      refine ih.tail ?_
      rw [← map_fst_stackItems]
      exact List.mem_map_of_mem hnext

theorem reaches_of_leads {item : StackItem} (h : Leads records item.1 t) :
    ∃ item', item'.1 = t ∧ Reaches (stackItems records) item item' := by
  induction h with
  | refl => exact ⟨item, rfl, .refl⟩
  | tail _ hnext ih =>
      obtain ⟨item', rfl, hreach⟩ := ih
      rw [← map_fst_stackItems] at hnext
      obtain ⟨item'', hitem, rfl⟩ := List.mem_map.mp hnext
      exact ⟨item'', rfl, hreach.tail hitem⟩

/-! ## What is registered -/

/-- A type that the seeds of a config lead to. -/
def Reached (getAsString : QualType → Str) (tu : TranslationUnit) (config : ThunkConfig)
    (t : QualType) : Prop :=
  ∃ call ∈ collectCalls getAsString tu config, ∃ item ∈ call.stack, Leads tu.records item.1 t

/-- A type that leads to a function pointer. -/
def Carries (records : List RecordDecl) (t : QualType) : Prop :=
  ∃ t', t'.isFunctionPointerType = true ∧ Leads records t t'

/-- A type that occurs, or a function pointer that occurs with qualifiers. -/
def Occurs (getAsString : QualType → Str) (tu : TranslationUnit) (config : ThunkConfig)
    (t : QualType) : Prop :=
  Reached getAsString tu config t ∨
    ∃ quals c, Reached getAsString tu config (.pointer quals c) ∧ t = .pointerTo c

/-- Types that are spelled alike are the same, unless they do not lead to a function
pointer: the forms of `va_list` are spelled alike. -/
def SpellsApart (getAsString : QualType → Str) (tu : TranslationUnit) (config : ThunkConfig) :
    Prop :=
  ∀ t t', Occurs getAsString tu config t → Occurs getAsString tu config t' →
    getTypeString getAsString t = getTypeString getAsString t' → Carries tu.records t → t = t'

/-- Every call of a run that ends has ended. -/
theorem items_of_stat (h : stat getAsString tu config fuel = some infos)
    (hcall : call ∈ collectCalls getAsString tu config) :
    ∃ items, call.items getAsString tu.records fuel = some items := by
  rw [stat] at h
  generalize ([] : List CallbackInfo) = callbacks at h
  generalize collectCalls getAsString tu config = calls at h hcall
  induction calls generalizing callbacks with
  | nil => exact absurd hcall List.not_mem_nil
  | cons c calls ih =>
      rw [List.foldlM_cons] at h
      obtain ⟨cbs, hc, hrest⟩ := Option.bind_eq_some_iff.mp h
      rcases List.mem_cons.mp hcall with rfl | hcall
      · obtain ⟨items, hitems, -⟩ := Option.map_eq_some_iff.mp hc
        exact ⟨items, hitems⟩
      · exact ih _ hrest hcall

/-- Stat registers the function pointer types that the config leads to. -/
theorem mem_stat_iff (hspell : SpellsApart getAsString tu config)
    (h : stat getAsString tu config fuel = some infos)
    (ht : Occurs getAsString tu config t) (hp : t.isFunctionPointerType = true) :
    String.ofList (getTypeString getAsString t) ∈ infos.map CallbackInfo.signature ↔
      Reached getAsString tu config t := by
  rw [mem_foldlM_collect h]
  simp only [List.map_nil, List.not_mem_nil, or_false]
  constructor
  · rintro ⟨call, hcall, items, hitems, item, hitem, hitemp, heq⟩
    obtain ⟨seed, hseed, hreach⟩ := reaches_of_mem hitems hitem
    have hreached : Reached getAsString tu config item.1 :=
      ⟨call, hcall, seed, hseed, leads_of_reaches hreach⟩
    have hsame := hspell t item.1 ht (.inl hreached) (String.ofList_injective heq) ⟨t, hp, .refl⟩
    exact hsame ▸ hreached
  · rintro ⟨call, hcall, seed, hseed, hleads⟩
    obtain ⟨items, hitems⟩ := items_of_stat h hcall
    obtain ⟨item, rfl, hreach⟩ := reaches_of_leads hleads
    have hreached : ∀ {item' : StackItem}, Reaches (stackItems tu.records) seed item' →
        Reached getAsString tu config item'.1 :=
      fun hr => ⟨call, hcall, seed, hseed, leads_of_reaches hr⟩
    -- an item on the way leads to a function pointer, so only its own type has its spelling
    have hkey : getTypeString getAsString item.1 ∈
        items.map fun item => getTypeString getAsString item.1 := by
      refine mem_of_reaches hitems hseed (fun c d hc hcx hd hdc c' hc' => ?_) hreach
      obtain ⟨seed', hseed', hd'⟩ := reaches_of_mem hitems hd
      have hdreached : Reached getAsString tu config d.1 :=
        ⟨call, hcall, seed', hseed', leads_of_reaches hd'⟩
      have hsame := hspell c.1 d.1 (.inl (hreached hc)) (.inl hdreached) hdc.symm
        ⟨item.1, hp, leads_of_reaches hcx⟩
      have hnext : c'.1 ∈ (stackItems tu.records d).map Prod.fst := by
        rw [map_fst_stackItems, ← hsame, ← map_fst_stackItems]
        exact List.mem_map_of_mem hc'
      obtain ⟨d'', hd'', heq⟩ := List.mem_map.mp hnext
      exact ⟨d'', hd'', by rw [heq]⟩
    obtain ⟨found, hfound, heq⟩ := List.mem_map.mp hkey
    obtain ⟨seed', hseed', hreach'⟩ := reaches_of_mem hitems hfound
    have hsame := hspell item.1 found.1 (.inl (hreached hreach))
      (.inl ⟨call, hcall, seed', hseed', leads_of_reaches hreach'⟩) heq.symm ⟨item.1, hp, .refl⟩
    exact ⟨call, hcall, items, hitems, found, hfound, hsame ▸ hp, by rw [hsame]⟩

end Lorelei.TLC
