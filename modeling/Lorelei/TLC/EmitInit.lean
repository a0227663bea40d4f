import Lorelei.Lib.Joined
import Lorelei.TLC.CallbackAliases
import Lorelei.TLC.TreesComplete
import Mathlib.Data.List.Forall2

/-!
# The init statements of a tree

`emitInit` walks a tree and wraps each callback with the trampoline of an allocator. The
allocator stands under a name that is made of the names on the way to the callback, and is
declared once for each name. So every callback has an allocator of its own exactly if no two
paths run together in these names (`allocatorsOwn_iff`).
-/

namespace Lorelei.TLC

open Support SortedMap Joined

/-- The statements that `emitInit` writes. -/
inductive InitStatement where
  /-- The pointers to a member and to its context, and a block where they may be used. -/
  | child (var name : String) (reach : Reach) (valExpr ctxExpr : String)
      (body : List InitStatement)
  /-- The call of `CallbackContext::init` for a callback. -/
  | init (name valExpr ctxExpr allocator : String)

/-- `allocators`: the callee types under the names of their allocators. -/
abbrev Allocators := List (String × QualType)

namespace InitStatement

/-- `indent`. -/
def indent (level : Nat) : String := String.ofList (List.replicate (level * 4) ' ')

mutual

/-- The text of a statement. -/
def text (guestCallback : Bool) (level : Nat) : InitStatement → String
  | .child var name reach valExpr ctxExpr body =>
      let pad := indent level
      let byValue := reach == .byValue
      pad ++ "auto " ++ var ++ " = " ++ (if byValue then "&" else "") ++ valExpr ++ name ++ ";\n" ++
        pad ++ "auto " ++ var ++ "_ctx = &" ++ ctxExpr ++ name ++ ";\n" ++
        pad ++ "if (" ++ (if byValue then "1" else var) ++ ") \x7b\n" ++
        textOf guestCallback (level + 1) body ++ pad ++ "\x7d\n"
  | .init name valExpr ctxExpr allocator =>
      indent level ++ ctxExpr ++ name ++ ".init<" ++ (if guestCallback then "true" else "false") ++
        ">((void *&) " ++ valExpr ++ name ++ ", allocCallbackTrampoline<" ++ allocator ++
        "::invoke>);\n"

def textOf (guestCallback : Bool) (level : Nat) : List InitStatement → String
  | [] => ""
  | statement :: statements =>
      statement.text guestCallback level ++ textOf guestCallback level statements

end

mutual

/-- The allocators that statements use, in order. -/
def used : InitStatement → List String
  | .child _ _ _ _ _ body => usedOf body
  | .init _ _ _ allocator => [allocator]

def usedOf : List InitStatement → List String
  | [] => []
  | statement :: statements => statement.used ++ usedOf statements

end

theorem usedOf_append (ss ss' : List InitStatement) :
    usedOf (ss ++ ss') = usedOf ss ++ usedOf ss' := by
  induction ss with
  | nil => rfl
  | cons s ss ih => rw [List.cons_append, usedOf, usedOf, ih, List.append_assoc]

end InitStatement

def CallbackTree.reach : CallbackTree → Reach
  | .node _ reach _ _ _ => reach

/-- The loop of `emitInit` over the callbacks of a node. -/
def emitCallbacks (valExpr ctxExpr idPath : String) :
    List (String × QualType) → Allocators → List InitStatement × Allocators
  | [], allocators => ([], allocators)
  | (name, calleeType) :: callbacks, allocators =>
      let allocator := idPath ++ "____" ++ name ++ "_xx_ThunkAlloc"
      let (rest, allocators) := emitCallbacks valExpr ctxExpr idPath callbacks
        (emplace allocator calleeType allocators)
      (.init name valExpr ctxExpr allocator :: rest, allocators)

mutual

/-- `emitInit`. -/
def emitInit : CallbackTree → (valExpr ctxExpr idPath : String) → Allocators →
    List InitStatement × Allocators
  | .node _ _ callbacks children _, valExpr, ctxExpr, idPath, allocators =>
      let (body, allocators) := emitChildren children valExpr ctxExpr idPath allocators
      let (inits, allocators) := emitCallbacks valExpr ctxExpr idPath callbacks allocators
      (body ++ inits, allocators)

/-- The loop of `emitInit` over the children of a node. -/
def emitChildren : List (String × CallbackTree) → (valExpr ctxExpr idPath : String) →
    Allocators → List InitStatement × Allocators
  | [], _, _, _, allocators => ([], allocators)
  | (name, child) :: children, valExpr, ctxExpr, idPath, allocators =>
      let childId := idPath ++ "____" ++ name
      let var := "p_" ++ childId
      let (body, allocators) := emitInit child (var ++ "->") (var ++ "_ctx->") childId allocators
      let (rest, allocators) := emitChildren children valExpr ctxExpr idPath allocators
      (.child var name child.reach valExpr ctxExpr body :: rest, allocators)

end

/-! ## Maps -/

namespace CallbackTree

mutual

/-- The maps of all nodes are maps. -/
def Maps : CallbackTree → Prop
  | .node _ _ callbacks children _ =>
      Sorted Prod.fst callbacks ∧ Sorted Prod.fst children ∧ MapsOf children

def MapsOf : List (String × CallbackTree) → Prop
  | [] => True
  | (_, child) :: children => child.Maps ∧ MapsOf children

end

theorem mapsOf_iff {children : List (String × CallbackTree)} :
    MapsOf children ↔ ∀ p ∈ children, p.2.Maps := by
  induction children with
  | nil => simp [MapsOf]
  | cons p children ih => rw [MapsOf, ih, List.forall_mem_cons]

theorem maps_unsupported : unsupported.Maps := ⟨.nil, .nil, trivial⟩

theorem maps_noCallbacks : noCallbacks.Maps := ⟨.nil, .nil, trivial⟩

end CallbackTree

open CallbackTree

section Build

variable {getAsString : QualType → Str} {records : List RecordDecl} {fuel : Nat} {t : QualType}
  {visited : List Str} {tree : CallbackTree}

/-- The trees that `build` makes consist of maps. -/
theorem maps_build (h : build getAsString records fuel t visited = some tree) : tree.Maps := by
  induction fuel generalizing t visited tree with
  | zero => cases h
  | succ fuel ih =>
      rw [build] at h
      obtain ⟨bad, -, h⟩ := Option.bind_eq_some_iff.mp h
      split at h
      case isTrue => exact Option.some.inj h ▸ maps_unsupported
      case isFalse =>
        split at h
        case isTrue => exact Option.some.inj h ▸ maps_noCallbacks
        case isFalse =>
          obtain ⟨result, hresult, rfl⟩ := Option.map_eq_some_iff.mp h
          rcases buildFields_cases hresult with ⟨rfl, -⟩ | ⟨callbacks, children, hfields, rfl⟩
          · exact maps_unsupported
          · have hchildren : MapsOf (insertAll Prod.fst children []) := by
              refine mapsOf_iff.mpr fun p hp => ?_
              obtain ⟨-, type, -, -, hchild⟩ := hfields.exists_of_child (mem_of_mem_insertAll hp)
              exact ih hchild
            split
            next heq => cases heq
            next => exact maps_noCallbacks
            next callbacks' children' _ heq =>
              rw [Option.some.injEq, Prod.mk.injEq] at heq
              obtain ⟨rfl, rfl⟩ := heq
              exact ⟨sorted_insertAll _ .nil, sorted_insertAll _ .nil, hchildren⟩

/-- So do those of argument lists, if the trees of the cache do. -/
theorem maps_argumentTree {args : List (QualType × String)} {cache cache' : TreeCache}
    {callbacks outCallbacks : List (String × QualType)} {children : List (String × CallbackTree)}
    (hcache : ∀ p ∈ cache, p.2.Maps) (hcallbacks : Sorted Prod.fst callbacks)
    (hsorted : Sorted Prod.fst children) (hchildren : ∀ p ∈ children, p.2.Maps)
    (h : argumentTree getAsString records fuel args cache callbacks children outCallbacks =
      some (cache', tree)) : (∀ p ∈ cache', p.2.Maps) ∧ tree.Maps := by
  induction args generalizing cache callbacks children outCallbacks with
  | nil =>
      cases h
      refine ⟨hcache, ?_⟩
      split
      · exact maps_noCallbacks
      · exact ⟨hcallbacks, hsorted, mapsOf_iff.mpr hchildren⟩
  | cons arg args ih =>
      obtain ⟨type, name⟩ := arg
      rw [argumentTree] at h
      split at h
      next callee _ =>
        exact ih hcache (sorted_insertNew (name, callee) hcallbacks) hsorted hchildren h
      next =>
        split at h
        next => exact ih hcache hcallbacks hsorted hchildren h
        next =>
          obtain ⟨⟨cache₁, tree₁⟩, hcached, h⟩ := Option.bind_eq_some_iff.mp h
          have hmaps : (∀ p ∈ cache₁, p.2.Maps) ∧ tree₁.Maps := by
            rw [cachedTree] at hcached
            split at hcached
            next hlookup =>
              cases hcached
              obtain ⟨before, after, hmem, -⟩ := List.lookup_eq_some_iff.mp hlookup
              exact ⟨hcache, hcache (getTypeString getAsString type, tree₁) (by rw [hmem]; simp)⟩
            next =>
              obtain ⟨tree', hbuild, heq⟩ := Option.map_eq_some_iff.mp hcached
              cases heq
              exact ⟨List.forall_mem_cons.mpr ⟨maps_build hbuild, hcache⟩, maps_build hbuild⟩
          dsimp only at h
          split at h
          · cases h
            exact ⟨hmaps.1, maps_unsupported⟩
          · refine ih hmaps.1 hcallbacks (sorted_insertNew (name, tree₁) hsorted) ?_ h
            exact forall_mem_emplace (Q := CallbackTree.Maps) hmaps.2 hchildren
          · exact ih hmaps.1 hcallbacks hsorted hchildren h

end Build

/-! ## Paths -/

theorem ne_nil_of_mem_entries {tree : CallbackTree} {e : List String × QualType}
    (h : e ∈ tree.entries) : e.1 ≠ [] := by
  obtain ⟨status, reach, callbacks, children, outCallbacks⟩ := tree
  rw [entries, entriesOf_eq_flatMap] at h
  rcases List.mem_append.mp h with h | h
  · obtain ⟨p, -, h⟩ := List.mem_flatMap.mp h
    obtain ⟨e', -, rfl⟩ := List.mem_map.mp h
    exact List.cons_ne_nil _ _
  · obtain ⟨p, -, rfl⟩ := List.mem_map.mp h
    exact List.cons_ne_nil _ _

mutual

/-- The paths of a tree differ. -/
theorem nodup_paths : ∀ tree : CallbackTree, tree.Maps → (tree.entries.map Prod.fst).Nodup
  | .node _ _ callbacks children _, ⟨hcallbacks, hsorted, hchildren⟩ => by
      rw [entries, List.map_append]
      refine List.nodup_append'.mpr ⟨nodup_pathsOf children hsorted hchildren, ?_, ?_⟩
      · rw [List.map_map]
        have hnames := (nodup_of_sorted hcallbacks).map List.singleton_injective
        rwa [List.map_map] at hnames
      · -- the path of a callback has one name, that of a child's callback has more
        intro path hchild hcallback
        rw [List.map_map] at hcallback
        obtain ⟨p, -, rfl⟩ := List.mem_map.mp hcallback
        obtain ⟨e, he, heq⟩ := List.mem_map.mp hchild
        rw [entriesOf_eq_flatMap] at he
        obtain ⟨c, -, he⟩ := List.mem_flatMap.mp he
        obtain ⟨e', he', rfl⟩ := List.mem_map.mp he
        exact ne_nil_of_mem_entries he' (List.cons.inj heq).2

theorem nodup_pathsOf : ∀ children : List (String × CallbackTree), Sorted Prod.fst children →
    MapsOf children → ((entriesOf children).map Prod.fst).Nodup
  | [], _, _ => List.nodup_nil
  | (name, child) :: children, hsorted, ⟨hchild, hchildren⟩ => by
      obtain ⟨hname, hsorted⟩ := List.pairwise_cons.mp hsorted
      rw [entriesOf, List.map_append]
      refine List.nodup_append'.mpr ⟨?_, nodup_pathsOf children hsorted hchildren, ?_⟩
      · rw [List.map_map]
        have hpaths := (nodup_paths child hchild).map (List.cons_injective (a := name))
        rwa [List.map_map] at hpaths
      · intro path hself hother
        rw [List.map_map] at hself
        obtain ⟨e, -, rfl⟩ := List.mem_map.mp hself
        obtain ⟨e', he', heq⟩ := List.mem_map.mp hother
        rw [entriesOf_eq_flatMap] at he'
        obtain ⟨c, hc, he'⟩ := List.mem_flatMap.mp he'
        obtain ⟨e'', -, rfl⟩ := List.mem_map.mp he'
        exact (hname c hc).ne (List.cons.inj heq).1.symm

end

/-! ## Allocators -/

/-- The allocator of the callback at a path. -/
def allocatorName (idPath : String) : List String → String
  | [] => idPath ++ "_xx_ThunkAlloc"
  | name :: path => allocatorName (idPath ++ "____" ++ name) path

theorem toList_allocatorName (idPath : String) (path : List String) :
    (allocatorName idPath path).toList = idPath.toList ++
      join "____".toList (path.map String.toList) ++ "_xx_ThunkAlloc".toList := by
  induction path generalizing idPath with
  | nil => rw [allocatorName, String.toList_append, List.map_nil, join_nil, List.append_nil]
  | cons name path ih =>
      rw [allocatorName, ih, List.map_cons, join_cons, String.toList_append, String.toList_append]
      simp only [List.append_assoc]

/-- The entry that a callback adds to the allocators. -/
abbrev allocatorOf (idPath : String) (entry : List String × QualType) : String × QualType :=
  (allocatorName idPath entry.1, entry.2)

theorem emitCallbacks_eq (valExpr ctxExpr idPath : String) (callbacks : List (String × QualType))
    (allocators : Allocators) :
    InitStatement.usedOf (emitCallbacks valExpr ctxExpr idPath callbacks allocators).1 =
        callbacks.map (fun (name, _) => allocatorName idPath [name]) ∧
      (emitCallbacks valExpr ctxExpr idPath callbacks allocators).2 =
        insertAll Prod.fst (callbacks.map fun (name, callee) => allocatorOf idPath ([name], callee))
          allocators := by
  induction callbacks generalizing allocators with
  | nil => exact ⟨rfl, rfl⟩
  | cons p callbacks ih =>
      obtain ⟨name, callee⟩ := p
      obtain ⟨hused, hallocators⟩ :=
        ih (emplace (idPath ++ "____" ++ name ++ "_xx_ThunkAlloc") callee allocators)
      rw [emitCallbacks]
      refine ⟨?_, hallocators⟩
      show [_] ++ InitStatement.usedOf _ = _
      rw [hused]
      rfl

mutual

/-- The statements use the allocators of the entries in order, and these are what is added. -/
theorem emitInit_eq : ∀ (tree : CallbackTree) (valExpr ctxExpr idPath : String)
    (allocators : Allocators),
    InitStatement.usedOf (emitInit tree valExpr ctxExpr idPath allocators).1 =
        tree.entries.map (fun e => allocatorName idPath e.1) ∧
      (emitInit tree valExpr ctxExpr idPath allocators).2 =
        insertAll Prod.fst (tree.entries.map (allocatorOf idPath)) allocators
  | .node _ _ callbacks children _, valExpr, ctxExpr, idPath, allocators => by
      obtain ⟨hbody, hchildren⟩ := emitChildren_eq children valExpr ctxExpr idPath allocators
      obtain ⟨hinits, hcallbacks⟩ := emitCallbacks_eq valExpr ctxExpr idPath callbacks
        (emitChildren children valExpr ctxExpr idPath allocators).2
      rw [emitInit, entries, List.map_append, List.map_append]
      constructor
      · rw [InitStatement.usedOf_append, hbody, hinits, List.map_map]
        rfl
      · rw [hcallbacks, hchildren, insertAll, insertAll, insertAll, List.foldl_append, List.map_map]
        rfl

theorem emitChildren_eq : ∀ (children : List (String × CallbackTree))
    (valExpr ctxExpr idPath : String) (allocators : Allocators),
    InitStatement.usedOf (emitChildren children valExpr ctxExpr idPath allocators).1 =
        (entriesOf children).map (fun e => allocatorName idPath e.1) ∧
      (emitChildren children valExpr ctxExpr idPath allocators).2 =
        insertAll Prod.fst ((entriesOf children).map (allocatorOf idPath)) allocators
  | [], _, _, _, _ => ⟨rfl, rfl⟩
  | (name, child) :: children, valExpr, ctxExpr, idPath, allocators => by
      let childId := idPath ++ "____" ++ name
      obtain ⟨hbody, hself⟩ := emitInit_eq child ("p_" ++ childId ++ "->")
        ("p_" ++ childId ++ "_ctx->") childId allocators
      obtain ⟨hrest, hchildren⟩ := emitChildren_eq children valExpr ctxExpr idPath
        (emitInit child ("p_" ++ childId ++ "->")
          ("p_" ++ childId ++ "_ctx->") childId allocators).2
      rw [emitChildren, entriesOf, List.map_append, List.map_append]
      constructor
      · show InitStatement.usedOf _ ++ InitStatement.usedOf _ = _
        rw [hbody, hrest, List.map_map]
        rfl
      · rw [hchildren, hself, insertAll, insertAll, insertAll, List.foldl_append, List.map_map]
        rfl

end

/-- Different callbacks use different allocators, there is one for each of them, and the
allocator that a callback uses is declared for the type of its callee. -/
structure AllocatorsOwn (procName : String) (tree : CallbackTree) : Prop where
  distinct : (InitStatement.usedOf (emitInit tree "" "ctx." procName []).1).Nodup
  one : (emitInit tree "" "ctx." procName []).2.length = tree.entries.length
  own : List.Forall₂ (fun allocator entry =>
      (emitInit tree "" "ctx." procName []).2.lookup allocator = some entry.2)
    (InitStatement.usedOf (emitInit tree "" "ctx." procName []).1) tree.entries

/-- The paths of the callbacks of a tree. -/
def memberPaths (tree : CallbackTree) : List (List Str) :=
  tree.entries.map fun e => e.1.map String.toList

theorem nodup_memberPaths {tree : CallbackTree} (h : tree.Maps) : (memberPaths tree).Nodup := by
  have hpaths := (nodup_paths tree h).map
    (List.map_injective_iff.mpr fun _ _ => String.toList_injective)
  rwa [List.map_map] at hpaths

theorem allocatorName_inj {idPath : String} {path path' : List String} :
    allocatorName idPath path = allocatorName idPath path' ↔
      join "____".toList (path.map String.toList) =
        join "____".toList (path'.map String.toList) := by
  rw [← String.toList_inj, toList_allocatorName, toList_allocatorName, List.append_cancel_right_eq,
    List.append_cancel_left_eq]

/-- Every callback has an allocator of its own exactly if no two paths run together. -/
theorem allocatorsOwn_iff (procName : String) (tree : CallbackTree) (hmaps : tree.Maps) :
    AllocatorsOwn procName tree ↔ ¬ RunTogether "____".toList (memberPaths tree) := by
  obtain ⟨hused, hallocators⟩ := emitInit_eq tree "" "ctx." procName []
  have hnodup : (tree.entries.map fun e => allocatorName procName e.1).Nodup ↔
      Set.InjOn (join "____".toList) {p | p ∈ memberPaths tree} := by
    have hiff := List.nodup_map_iff_inj_on (f := join "____".toList) (nodup_memberPaths hmaps)
    rw [memberPaths, List.map_map] at hiff
    have hsame : (tree.entries.map fun e => allocatorName procName e.1).Nodup ↔
        (tree.entries.map (join "____".toList ∘ fun e => e.1.map String.toList)).Nodup := by
      rw [List.Nodup, List.Nodup, List.pairwise_map, List.pairwise_map]
      simp only [ne_eq, allocatorName_inj, Function.comp_apply]
    exact hsame.trans hiff
  rw [← injOn_join_iff (by simp), ← hnodup]
  constructor
  · intro h
    rw [← hused]
    exact h.distinct
  · intro h
    have hkeys : ((tree.entries.map (allocatorOf procName)).map Prod.fst).Nodup := by
      rwa [List.map_map]
    have hperm := perm_insertAll_iff.mpr hkeys
    rw [← hallocators] at hperm
    have hsorted : Sorted Prod.fst (emitInit tree "" "ctx." procName []).2 :=
      hallocators ▸ sorted_insertAll _ .nil
    refine ⟨hused ▸ h, by rw [hperm.length_eq, List.length_map], ?_⟩
    rw [hused, List.forall₂_map_left_iff]
    refine List.forall₂_same.mpr fun e he => lookup_of_mem hsorted ?_
    exact hperm.mem_iff.mpr (List.mem_map_of_mem he)

/-! ## A member that spells out a path -/

section On

/-- `void (int)`. -/
def statusType : QualType := .functionProto .void [.builtin {} .int] false

/-- `struct on { void (*open)(void); }; struct ops { void (*name)(int); struct on on; };`, for
a member name. -/
def onRecords (name : String) : List RecordDecl :=
  [⟨.struct, "ops", [(name, .pointerTo statusType), ("on", .tag {} .struct "on")]⟩,
    ⟨.struct, "on", [("open", .pointerTo hookType)]⟩]

/-- The tree of `void set_ops(struct ops *)`. -/
def onTree (name : String) : CallbackTree :=
  .node .hasCallbacks .byValue []
    [("arg1", .node .hasCallbacks .byPointer [(name, statusType)]
      [("on", .node .hasCallbacks .byValue [("open", hookType)] [] [])] [])] []

example : (buildArgumentTree QualType.getAsString (onRecords "on____open") 10 []
    [.pointerTo (.tag {} .struct "ops")]).map Prod.snd = some (onTree "on____open") := by
  rfl

theorem maps_onTree (name : String) : (onTree name).Maps :=
  ⟨.nil, List.pairwise_singleton _ _, ⟨List.pairwise_singleton _ _, List.pairwise_singleton _ _,
    ⟨List.pairwise_singleton _ _, .nil, trivial⟩, trivial⟩, trivial⟩

/-- Both callbacks have an allocator if the member is named `on_open`. -/
theorem allocatorsOwn_onTree : AllocatorsOwn "set_ops" (onTree "on_open") := by
  refine (allocatorsOwn_iff "set_ops" (onTree "on_open") (maps_onTree _)).mpr ?_
  rw [← injOn_join_iff (by simp)]
  have hnodup : ((memberPaths (onTree "on_open")).map (join "____".toList)).Nodup := by
    decide
  intro p hp q hq heq
  exact List.inj_on_of_nodup_map hnodup hp hq heq

/-- The callback `on____open` and the callback `open` of the member `on` share their
allocator. -/
theorem not_allocatorsOwn :
    ¬ ∀ (procName : String) (tree : CallbackTree), tree.Maps → AllocatorsOwn procName tree := by
  intro h
  have hdistinct := (h "set_ops" (onTree "on____open") (maps_onTree _)).distinct
  rw [(emitInit_eq _ _ _ _ _).1] at hdistinct
  have hnames : (onTree "on____open").entries.map (fun e => allocatorName "set_ops" e.1) =
      [allocatorName "set_ops" ["arg1", "on", "open"],
        allocatorName "set_ops" ["arg1", "on____open"]] := rfl
  rw [hnames, List.nodup_cons, List.mem_singleton] at hdistinct
  exact hdistinct.1 (allocatorName_inj.mpr rfl)

end On

end Lorelei.TLC
