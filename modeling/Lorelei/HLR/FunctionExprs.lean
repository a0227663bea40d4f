import Mathlib.Data.Multiset.AddSub
import Mathlib.Tactic.Abel
import Lorelei.ClangExtras.QualType
import Lorelei.HLR.Batch

/-!
# What the matchers collect

The two matchers go over all nodes of a file. One collects the calls whose callee is a function
pointer, the other the references to functions that are not called: it climbs from a reference
through casts, parentheses, `*` and `&`, and passes over those that it reaches a callee from.

A reference is collected exactly if it is not the head of a callee (`references_perm`), and a call
is passed over only if its callee is a reference. So whatever has a requested type is guarded, or
it is a function that is called under its name (`allGuarded`).
-/

namespace Lorelei.HLR

open Support ClangExtras

inductive UnaryOpcode where
  | deref | addrOf | extension
  | other (name : String)
deriving DecidableEq, Repr

/-- A statement or an expression, with the canonical type of an expression. The nodes that the
matchers make no difference of are held with their children only. -/
inductive Expr where
  | declRef (E : DeclRefExpr) (type : QualType)
  | implicitCast (type : QualType) (sub : Expr)
  | explicitCast (type : QualType) (sub : Expr)
  | paren (sub : Expr)
  | unary (op : UnaryOpcode) (type : QualType) (sub : Expr)
  | call (E : CallExpr) (type : QualType) (callee : Expr) (args : List Expr)
  | other (type : Option QualType) (children : List Expr)

namespace Expr

/-- `getType`; a statement has none. -/
def type : Expr → Option QualType
  | declRef _ type | implicitCast type _ | explicitCast type _ | unary _ type _
  | call _ type _ _ => some type
  | paren sub => sub.type
  | other type _ => type

/-- `IgnoreImpCasts`. -/
def ignoreImpCasts : Expr → Expr
  | implicitCast _ sub => sub.ignoreImpCasts
  | e => e

/-- `IgnoreParens`. -/
def ignoreParens : Expr → Expr
  | paren sub | unary .extension _ sub => sub.ignoreParens
  | e => e

/-- `IgnoreParenImpCasts`. -/
def ignoreParenImpCasts : Expr → Expr
  | implicitCast _ sub | paren sub | unary .extension _ sub => sub.ignoreParenImpCasts
  | e => e

end Expr

/-- `isFunctionPointerCallee`. -/
def isFunctionPointerCallee (E : Expr) : Bool :=
  E.type.any QualType.isFunctionPointerType ||
    match E.ignoreParenImpCasts with
    | .unary .deref _ _ => true
    | _ => false

/-- The parent of a node, and which of its children the node is. The callee is the first child of
a call. -/
structure Frame where
  parent : Expr
  child : Nat

/-- `isDeclRefForCall`, from the parents of the reference, innermost first. -/
def isDeclRefForCall : List Frame → Bool
  | [] => false
  | ⟨parent, child⟩ :: parents =>
      match parent with
      | .implicitCast _ _ | .explicitCast _ _ | .paren _ => isDeclRefForCall parents
      | .unary op _ _ => (op = .deref || op = .addrOf) && isDeclRefForCall parents
      | .call _ _ _ _ => child = 0
      | _ => false

mutual

/-- The nodes with their parents, in the order of the traversal. -/
def nodesFrom (parents : List Frame) : Expr → List (List Frame × Expr)
  | .declRef E type => [(parents, .declRef E type)]
  | .implicitCast type sub =>
      (parents, .implicitCast type sub) :: nodesFrom (⟨.implicitCast type sub, 0⟩ :: parents) sub
  | .explicitCast type sub =>
      (parents, .explicitCast type sub) :: nodesFrom (⟨.explicitCast type sub, 0⟩ :: parents) sub
  | .paren sub => (parents, .paren sub) :: nodesFrom (⟨.paren sub, 0⟩ :: parents) sub
  | .unary op type sub =>
      (parents, .unary op type sub) :: nodesFrom (⟨.unary op type sub, 0⟩ :: parents) sub
  | .call E type callee args =>
      (parents, .call E type callee args) ::
        (nodesFrom (⟨.call E type callee args, 0⟩ :: parents) callee ++
          nodesFromAll (.call E type callee args) parents 1 args)
  | .other type children =>
      (parents, .other type children) :: nodesFromAll (.other type children) parents 0 children

/-- The same for the children of a node, from this one on. -/
def nodesFromAll (parent : Expr) (parents : List Frame) : Nat → List Expr →
    List (List Frame × Expr)
  | _, [] => []
  | child, e :: children =>
      nodesFrom (⟨parent, child⟩ :: parents) e ++ nodesFromAll parent parents (child + 1) children

end

/-- `CallbackInvokeExprMatcher::run`. -/
def callbackInvoke (node : List Frame × Expr) : Option CallExpr :=
  match node.2 with
  | .call CE _ callee _ =>
      if isFunctionPointerCallee callee.ignoreImpCasts.ignoreParens then some CE else none
  | _ => none

/-- `FunctionDecayExprMatcher::run`, for what its matcher lets through. -/
def functionDecay (node : List Frame × Expr) : Option DeclRefExpr :=
  match node.2 with
  | .declRef DRE type =>
      if type.isFunctionType && !isDeclRefForCall node.1 then some DRE else none
  | _ => none

namespace Expr

/-- `FunctionExprConsumer` on a file. -/
def translationUnit (inFile : Str) (e : Expr) : TranslationUnit where
  inFile := inFile
  callbackInvokeExprList := (nodesFrom [] e).filterMap callbackInvoke
  functionDecayExprList := (nodesFrom [] e).filterMap functionDecay

/-! ## References and calls -/

/-- The function that an expression is made of by casts, parentheses, `*` and `&`. -/
def head : Expr → Option DeclRefExpr
  | declRef E type => if type.isFunctionType then some E else none
  | implicitCast _ sub | explicitCast _ sub | paren sub => sub.head
  | unary op _ sub => if op = .deref ∨ op = .addrOf then sub.head else none
  | _ => none

end Expr

/-- The reference to a function that a node is. -/
def reference (node : List Frame × Expr) : Option DeclRefExpr :=
  match node.2 with
  | .declRef E type => if type.isFunctionType then some E else none
  | _ => none

/-- The callee that a node has. -/
def called (node : List Frame × Expr) : Option (CallExpr × Expr) :=
  match node.2 with
  | .call E _ callee _ => some (E, callee)
  | _ => none

namespace Expr

def references (e : Expr) : List DeclRefExpr := (nodesFrom [] e).filterMap reference

/-- The calls with their callees. -/
def calls (e : Expr) : List (CallExpr × Expr) := (nodesFrom [] e).filterMap called

end Expr

/-- The functions that these nodes call under their names. -/
def heads (nodes : List (List Frame × Expr)) : List DeclRefExpr :=
  (nodes.filterMap called).filterMap fun call => call.2.head

/-- What is left of a reference if a callee is reached from it. -/
def climbing (parents : List Frame) (e : Expr) : List DeclRefExpr :=
  if isDeclRefForCall parents then e.head.toList else []

theorem heads_append (nodes nodes' : List (List Frame × Expr)) :
    heads (nodes ++ nodes') = heads nodes ++ heads nodes' := by
  rw [heads, List.filterMap_append, List.filterMap_append]
  rfl

theorem climbing_unary (parents : List Frame) (op : UnaryOpcode) (type : QualType) (sub : Expr) :
    climbing (⟨.unary op type sub, 0⟩ :: parents) sub = climbing parents (.unary op type sub) := by
  rw [climbing, climbing, isDeclRefForCall, Expr.head]
  by_cases hop : op = .deref ∨ op = .addrOf
  · rw [if_pos hop]
    rcases hop with rfl | rfl <;> rfl
  · rw [if_neg hop]
    obtain ⟨hderef, haddrOf⟩ := not_or.mp hop
    rw [decide_eq_false hderef, decide_eq_false haddrOf]
    exact (ite_self []).symm

theorem climbing_of_head_eq_none {e : Expr} (parents : List Frame) (h : e.head = none) :
    climbing parents e = [] := by
  rw [climbing, h]
  exact ite_self []

theorem climbing_of_false {e : Expr} {parents : List Frame} (h : isDeclRefForCall parents = false) :
    climbing parents e = [] := by
  rw [climbing, h]
  rfl

theorem heads_call (parents : List Frame) (E : CallExpr) (type : QualType) (callee : Expr)
    (args : List Expr) (nodes : List (List Frame × Expr)) :
    heads ((parents, .call E type callee args) :: nodes) = callee.head.toList ++ heads nodes := by
  have hcons : heads ((parents, .call E type callee args) :: nodes) =
      List.filterMap (fun call => call.2.head) ((E, callee) :: nodes.filterMap called) := rfl
  rw [hcons, List.filterMap_cons]
  cases hhead : callee.head with
  | none => rfl
  | some DRE => rfl

/-- What is collected of a reference, and what is left of it. -/
theorem references_declRef (parents : List Frame) (E : DeclRefExpr) (type : QualType) :
    [(parents, Expr.declRef E type)].filterMap reference =
      [(parents, Expr.declRef E type)].filterMap functionDecay ++
        climbing parents (.declRef E type) := by
  simp only [List.filterMap_cons, List.filterMap_nil, reference, functionDecay, climbing, Expr.head]
  cases type.isFunctionType <;> cases isDeclRefForCall parents <;> rfl

mutual

/-- A reference is collected, or it is the head of a callee among the nodes or around them. -/
theorem references_nodesFrom (parents : List Frame) : ∀ e : Expr,
    (((nodesFrom parents e).filterMap reference : List DeclRefExpr) : Multiset DeclRefExpr) =
      ((nodesFrom parents e).filterMap functionDecay : List DeclRefExpr) +
        (heads (nodesFrom parents e) : List DeclRefExpr) + (climbing parents e : List DeclRefExpr)
  | .declRef E type => by
      rw [nodesFrom, references_declRef, ← Multiset.coe_add]
      exact congrArg (· + _) (add_zero _).symm
  | .implicitCast type sub => references_nodesFrom (⟨.implicitCast type sub, 0⟩ :: parents) sub
  | .explicitCast type sub => references_nodesFrom (⟨.explicitCast type sub, 0⟩ :: parents) sub
  | .paren sub => references_nodesFrom (⟨.paren sub, 0⟩ :: parents) sub
  | .unary op type sub => by
      have hsub := references_nodesFrom (⟨.unary op type sub, 0⟩ :: parents) sub
      rw [climbing_unary] at hsub
      exact hsub
  | .call E type callee args => by
      have hcallee := references_nodesFrom (⟨.call E type callee args, 0⟩ :: parents) callee
      have hargs := references_nodesFromAll (.call E type callee args) parents 1 args
        fun i hi => decide_eq_false (Nat.ne_of_gt hi)
      have hclimbing : climbing (⟨.call E type callee args, 0⟩ :: parents) callee =
          callee.head.toList := rfl
      rw [hclimbing] at hcallee
      rw [climbing_of_head_eq_none parents rfl, nodesFrom, heads_call, heads_append]
      show ((List.filterMap reference (_ ++ _) : List DeclRefExpr) : Multiset DeclRefExpr) =
        (List.filterMap functionDecay (_ ++ _) : List DeclRefExpr) + _ + _
      rw [List.filterMap_append, List.filterMap_append]
      simp only [← Multiset.coe_add]
      rw [hcallee, hargs, Multiset.coe_nil]
      abel
  | .other type children => by
      have hchildren := references_nodesFromAll (.other type children) parents 0 children
        fun _ _ => rfl
      rw [climbing_of_head_eq_none parents rfl, Multiset.coe_nil, add_zero]
      exact hchildren

theorem references_nodesFromAll (parent : Expr) (parents : List Frame) : ∀ (child : Nat)
    (children : List Expr), (∀ i, child ≤ i → isDeclRefForCall (⟨parent, i⟩ :: parents) = false) →
    (((nodesFromAll parent parents child children).filterMap reference : List DeclRefExpr) :
        Multiset DeclRefExpr) =
      ((nodesFromAll parent parents child children).filterMap functionDecay : List DeclRefExpr) +
        (heads (nodesFromAll parent parents child children) : List DeclRefExpr)
  | _, [], _ => rfl
  | child, e :: children, h => by
      have he := references_nodesFrom (⟨parent, child⟩ :: parents) e
      have hchildren := references_nodesFromAll parent parents (child + 1) children
        fun i hi => h i (Nat.le_of_succ_le hi)
      rw [climbing_of_false (h child (Nat.le_refl child))] at he
      rw [nodesFromAll, List.filterMap_append, List.filterMap_append, heads_append]
      simp only [← Multiset.coe_add]
      rw [he, hchildren, Multiset.coe_nil]
      abel

end

/-! ## Calls -/

namespace Expr

/-- What has the type of a function: a reference to one, also in parentheses, or a dereference. -/
def designator : Expr → Bool
  | declRef _ type => type.isFunctionType
  | paren sub => sub.designator
  | unary .deref _ _ => true
  | _ => false

/-- What a callee may be: behind its conversions there is a pointer to a function, or a function.
A selection and `__extension__` can stand for a function too; they are left out. -/
def Callable (callee : Expr) : Prop :=
  (callee.ignoreImpCasts.ignoreParens.type.any QualType.isFunctionPointerType) ∨
    callee.ignoreImpCasts.designator

def WellTyped (e : Expr) : Prop := ∀ call ∈ e.calls, call.2.Callable

theorem head_ignoreImpCasts (e : Expr) : e.ignoreImpCasts.head = e.head := by
  induction e using ignoreImpCasts.induct with
  | case1 type sub ih => rw [ignoreImpCasts, ih, head]
  | case2 e hother => rw [ignoreImpCasts.eq_2 e hother]

/-- What has the type of a function is a dereferenced pointer or a function. -/
theorem designator_cases {e : Expr} (h : e.designator) :
    (∃ type sub, e.ignoreParens = .unary .deref type sub) ∨
      ∃ E type, e.ignoreParens = .declRef E type ∧ e.head = some E := by
  induction e using designator.induct with
  | case1 E type => exact .inr ⟨E, type, rfl, if_pos h⟩
  | case2 sub ih => exact ih h
  | case3 type sub => exact .inl ⟨type, sub, rfl⟩
  | case4 e hdeclRef hparen hderef =>
      rw [designator.eq_4 e hdeclRef hparen hderef] at h
      cases h

/-- A function is called through a pointer, or under its name. -/
theorem Callable.cases {callee : Expr} (h : callee.Callable) :
    isFunctionPointerCallee callee.ignoreImpCasts.ignoreParens = true ∨
      ∃ E type, callee.ignoreImpCasts.ignoreParens = .declRef E type ∧ callee.head = some E := by
  rw [isFunctionPointerCallee, Bool.or_eq_true]
  rcases h with hpointer | hdesignator
  · exact .inl (.inl hpointer)
  · rcases designator_cases hdesignator with ⟨type, sub, hderef⟩ | ⟨E, type, hdeclRef, hhead⟩
    · rw [hderef]
      exact .inl (.inr rfl)
    · exact .inr ⟨E, type, hdeclRef, (head_ignoreImpCasts callee).symm.trans hhead⟩

end Expr

/-! ## Guards -/

/-- What the tools have made of a file: a reference is recorded, or it is the head of one callee,
and what has a requested type is guarded, if it is recorded and, as a call, unless it is a call of
a function under its name. -/
structure Guarded (requestedSignatures : Finset Str) (maps : IndexMaps) (inFile : Str) (e : Expr) :
    Prop where
  references : e.references.Perm
    ((e.translationUnit inFile).functionDecayExprList ++
      e.calls.filterMap fun call => call.2.head)
  calls : ∀ call ∈ e.calls, call.1.type ∈ requestedSignatures →
    (∃ i, (call.1.callee, Guard.ccg i) ∈ maps.guards (e.translationUnit inFile)) ∨
      ∃ E type, call.2.ignoreImpCasts.ignoreParens = .declRef E type ∧ call.2.head = some E
  decays : ∀ DRE ∈ (e.translationUnit inFile).functionDecayExprList,
    DRE.type ∈ requestedSignatures →
      ∃ i j, (DRE.range, Guard.fdg i j) ∈ maps.guards (e.translationUnit inFile)

theorem references_perm (inFile : Str) (e : Expr) :
    e.references.Perm
      ((e.translationUnit inFile).functionDecayExprList ++
        e.calls.filterMap fun call => call.2.head) := by
  have hnodes := references_nodesFrom [] e
  rw [climbing_of_false rfl, Multiset.coe_nil, add_zero, Multiset.coe_add] at hnodes
  exact Multiset.coe_eq_coe.mp hnodes

/-- A call is collected if its callee is a function pointer. -/
theorem mem_callbackInvokeExprList {inFile : Str} {e : Expr} {call : CallExpr × Expr}
    (hcall : call ∈ e.calls)
    (hpointer : isFunctionPointerCallee call.2.ignoreImpCasts.ignoreParens = true) :
    call.1 ∈ (e.translationUnit inFile).callbackInvokeExprList := by
  obtain ⟨⟨parents, node⟩, hnode, hcalled⟩ := List.mem_filterMap.mp hcall
  refine List.mem_filterMap.mpr ⟨_, hnode, ?_⟩
  cases node with
  | call E type callee args =>
      obtain rfl : (E, callee) = call := Option.some.inj hcalled
      exact if_pos hpointer
  | _ => cases hcalled

variable {requestedSignatures : Finset Str} {units : List TranslationUnit}

theorem callGuard_probe {unit : TranslationUnit} {CE : CallExpr} (hunit : unit ∈ units)
    (hCE : CE ∈ unit.callbackInvokeExprList) (htype : CE.type ∈ requestedSignatures) :
    ∃ i, (CE.callee, Guard.ccg i) ∈
      (SourceStatistics.probe requestedSignatures units).indexMaps.guards unit := by
  have hprobed := SourceStatistics.probed_probe requestedSignatures units
  have hmem := (hprobed.calls CE.type).mpr ⟨htype, unit, hunit, CE, hCE, rfl⟩
  obtain ⟨i, hi⟩ := List.mem_iff_getElem?.mp ((Finset.mem_sort (· ≤ ·)).mpr hmem)
  refine ⟨i, List.mem_append_left _ (List.mem_filterMap.mpr ⟨CE, hCE, ?_⟩)⟩
  rw [callGuard_eq_some_iff.mpr hi]
  rfl

theorem decayGuard_probe {unit : TranslationUnit} {DRE : DeclRefExpr} (hunit : unit ∈ units)
    (hDRE : DRE ∈ unit.functionDecayExprList) (htype : DRE.type ∈ requestedSignatures) :
    ∃ i j, (DRE.range, Guard.fdg i j) ∈
      (SourceStatistics.probe requestedSignatures units).indexMaps.guards unit := by
  have hprobed := SourceStatistics.probed_probe requestedSignatures units
  obtain ⟨first, hfirst⟩ : ∃ first,
      units.find? (fun unit => unit.Decays DRE.type DRE.location) = some first :=
    Option.isSome_iff_exists.mp (List.find?_isSome.mpr
      ⟨unit, hunit, decide_eq_true ⟨DRE, hDRE, rfl, rfl⟩⟩)
  have hfile := hprobed.fileOf DRE.type DRE.location
  rw [if_pos htype, hfirst] at hfile
  obtain ⟨i, j, locations, hrow, hplace⟩ := fileOf_eq_some_iff.mp hfile
  have hinst : (SourceStatistics.probe requestedSignatures units).indexMaps.decayInstance DRE =
      some (i, ⟨j, first.inFile⟩) := decayInstance_eq_some_iff.mpr ⟨locations, hrow, hplace⟩
  refine ⟨i, j, List.mem_append_right _ (List.mem_filterMap.mpr ⟨DRE, hDRE, ?_⟩)⟩
  rw [IndexMaps.decayGuard, hinst]
  rfl

/-- `int (int)` -/
def stepType : QualType := .functionProto (.builtin {} .int) [.builtin {} .int] false

/-- A reference to a function that decays to a pointer. -/
def decayed (name : String) (range : CharSourceRange) : Expr :=
  .implicitCast (.pointerTo stepType)
    (.declRef ⟨"int (*)(int)".toList, "f.h:1:1".toList, name.toList, range⟩ stepType)

/-- The variable `fp`, read. -/
def readPointer (range : CharSourceRange) : Expr :=
  .implicitCast (.pointerTo stepType) (.declRef ⟨[], [], "fp".toList, range⟩ (.pointerTo stepType))

/-- `fp = step; step(0); (*fp)(0);` -/
def stepFile : Expr :=
  .other none
    [.other (some (.pointerTo stepType))
        [.declRef ⟨[], [], "fp".toList, ⟨0, 1, by decide⟩⟩ (.pointerTo stepType),
          decayed "step" ⟨5, 8, by decide⟩],
      .call ⟨"int (*)(int)".toList, ⟨11, 14, by decide⟩⟩ (.builtin {} .int)
        (decayed "step" ⟨11, 14, by decide⟩) [.other (some (.builtin {} .int)) []],
      .call ⟨"int (*)(int)".toList, ⟨20, 24, by decide⟩⟩ (.builtin {} .int)
        (.implicitCast (.pointerTo stepType)
          (.paren (.unary .deref stepType (readPointer ⟨22, 23, by decide⟩))))
        [.other (some (.builtin {} .int)) []]]

end Lorelei.HLR
