import Mathlib.Algebra.BigOperators.Group.List.Basic
import Mathlib.Data.List.Forall2
import Lorelei.Support.VarSizeArrayRuns

/-!
# Arrays stand for lists

As long as no request for copies overflows `size_type`, arrays have the contents of lists to
which the same has been done, no two of them share a buffer, and every element that has been
constructed is destroyed once (`runsAsLists`).
-/

namespace Lorelei.Support.VarSizeArray

open Storage

/-! ## Arrays that stand for lists -/

variable {T : Type} {traits : ElementTraits T} {allowed : Fault → Prop} {m m' : Memory T}

/-- The array and the list at a place, unless they have been destroyed. -/
abbrev Rep (T : Type) := Option (VarSizeArray × PlainList T)

def owned : Rep T → Multiset (Chunk T)
  | none => 0
  | some (a, p) => a.chunks p.items

def AllFit (traits : ElementTraits T) (reps : List (Rep T)) : Prop :=
  ∀ a p, some (a, p) ∈ reps → Fits traits p.inlineCapacity p.items a

/-- Arrays with the contents of lists; nothing else is in memory. -/
structure Refines (traits : ElementTraits T) (reps : List (Rep T)) (m : Memory T) : Prop where
  fits : AllFit traits reps
  view : m.view = (reps.map owned).sum

def arraysOf (reps : List (Rep T)) : List (Option VarSizeArray) := reps.map (Option.map Prod.fst)

def listsOf (reps : List (Rep T)) : List (Option (PlainList T)) := reps.map (Option.map Prod.snd)

/-- What is in memory besides the array at a place. -/
def frame (reps : List (Rep T)) (k : Nat) : Multiset (Chunk T) := ((reps.set k none).map owned).sum

variable {reps : List (Rep T)} {k l : Nat} {a b : VarSizeArray} {p q : PlainList T}

theorem sum_set (rep : Rep T) (hk : k < reps.length) :
    ((reps.set k rep).map owned).sum = owned rep + frame reps k := by
  rw [frame, List.map_set, List.map_set, List.sum_set, List.sum_set, List.length_map, if_pos hk,
    if_pos hk]
  show _ = owned rep + (_ + 0 + _)
  abel

theorem sum_eq (hk : reps[k]? = some (some (a, p))) :
    (reps.map owned).sum = a.chunks p.items + frame reps k := by
  obtain ⟨hlt, hget⟩ := List.getElem?_eq_some_iff.mp hk
  have hset := sum_set (some (a, p)) hlt
  rw [← hget, List.set_getElem_self, hget] at hset
  exact hset

theorem frame_eq (hl : reps[l]? = some (some (b, q))) (hne : k ≠ l) :
    frame reps k = b.chunks q.items + frame (reps.set k none) l := by
  refine sum_eq ?_
  rwa [List.getElem?_set_ne hne]

theorem exists_array (h : (listsOf reps)[k]?.join = some p) :
    ∃ a, reps[k]? = some (some (a, p)) ∧ (arraysOf reps)[k]?.join = some a := by
  rw [listsOf, List.getElem?_map] at h
  rw [arraysOf, List.getElem?_map]
  cases hk : reps[k]? with
  | none =>
      rw [hk] at h
      exact nomatch h
  | some rep =>
      rw [hk] at h
      cases rep with
      | none => exact nomatch h
      | some ap =>
          cases h
          exact ⟨ap.1, rfl, rfl⟩

theorem sizeOf_eq (h : (listsOf reps)[k]?.join = some p) :
    sizeOf (listsOf reps) k = p.items.length := by
  rw [sizeOf, h]
  rfl

theorem AllFit.set (h : AllFit traits reps) (ha : Fits traits p.inlineCapacity p.items a) :
    AllFit traits (reps.set k (some (a, p))) := by
  intro b q hmem
  rcases List.mem_or_eq_of_mem_set hmem with hold | hnew
  · exact h b q hold
  · cases hnew
    exact ha

namespace Refines

theorem owns (h : Refines traits reps m) (hk : reps[k]? = some (some (a, p))) :
    Owns traits p.inlineCapacity p.items (frame reps k) a m :=
  ⟨h.fits a p (List.mem_of_getElem? hk), h.view.trans (sum_eq hk)⟩

theorem both (h : Refines traits reps m) (hk : reps[k]? = some (some (a, p)))
    (hl : reps[l]? = some (some (b, q))) (hne : k ≠ l) :
    Both traits p.inlineCapacity p.items q.inlineCapacity q.items
      (frame (reps.set k none) l) a b m where
  left := h.fits a p (List.mem_of_getElem? hk)
  right := h.fits b q (List.mem_of_getElem? hl)
  view := by rw [h.view, sum_eq hk, frame_eq hl hne]

theorem set (h : Refines traits reps m) (hk : k < reps.length)
    (ha : Owns traits p.inlineCapacity p.items (frame reps k) a m') :
    Refines traits (reps.set k (some (a, p))) m' where
  fits := h.fits.set ha.toFits
  view := by
    rw [ha.view, sum_set _ hk]
    rfl

/-- Two arrays at different places are replaced. -/
theorem set₂ (h : Refines traits reps m) (hk : k < reps.length) (hl : l < reps.length)
    (hne : k ≠ l)
    (hb : Both traits p.inlineCapacity p.items q.inlineCapacity q.items
      (frame (reps.set k none) l) a b m') :
    Refines traits ((reps.set k (some (a, p))).set l (some (b, q))) m' where
  fits := (h.fits.set hb.left).set hb.right
  view := by
    have hl' : l < (reps.set k (some (a, p))).length := by
      rwa [List.length_set]
    have hk' : k < (reps.set l none).length := by
      rwa [List.length_set]
    have hframe : frame (reps.set k none) l = frame (reps.set l none) k := by
      rw [frame, frame, List.set_comm none none hne]
    have hset : frame (reps.set k (some (a, p))) l =
        a.chunks p.items + frame (reps.set l none) k := by
      rw [frame, List.set_comm _ none hne]
      exact sum_set _ hk'
    rw [hb.view, sum_set _ hl', hset, hframe, add_left_comm]
    rfl

theorem set_none (h : Refines traits reps m) (hv : m'.view = frame reps k) :
    Refines traits (reps.set k none) m' where
  fits := by
    intro b q hmem
    rcases List.mem_or_eq_of_mem_set hmem with hold | hnew
    · exact h.fits b q hold
    · exact nomatch hnew
  view := hv

end Refines

theorem AllFit.concat (h : AllFit traits reps)
    (ha : Owns traits p.inlineCapacity p.items (reps.map owned).sum a m) :
    Refines traits (reps ++ [some (a, p)]) m where
  fits := by
    intro b q hmem
    rcases List.mem_append.mp hmem with hold | hnew
    · exact h b q hold
    · cases List.mem_singleton.mp hnew
      exact ha.toFits
  view := by
    rw [ha.view, List.map_append, List.sum_append, add_comm]
    show _ = _ + (a.chunks p.items + 0)
    rw [add_zero]

/-! ## Arguments -/

/-- An element of another array keeps its value. -/
theorem reads_element {F G : Multiset (Chunk T)} {vs : List T} {i : Nat} {v : T}
    (hF : F = b.chunks vs + G) (hi : vs[i]? = some v) : Reads F (.element b.begin i) v := by
  intro m G' hv
  rw [hF, chunks] at hv
  have hv' : m.view = {⟨b.begin, !b.isInline, cells b.capacity vs⟩} + (b.spare + G + G') :=
    hv.trans (by abel)
  refine read_eq hv' ?_
  obtain ⟨hlt, -⟩ := List.getElem?_eq_some_iff.mp hi
  rw [cells, List.getElem?_append_left (by rwa [List.length_map]), List.getElem?_map, hi]
  rfl

/-- An argument that has a value can be read. -/
def Resolves (reps : List (Rep T)) (self : Option Nat) (F : Multiset (Chunk T)) : Prop :=
  ∀ x v, Operand.value? (listsOf reps) self x = some v →
    ∃ arg, Operand.resolve (arraysOf reps) x = some arg ∧ Reads F arg v

theorem resolves {self : Option Nat} {F : Multiset (Chunk T)}
    (hF : ∀ l b q, self ≠ some l → reps[l]? = some (some (b, q)) →
      ∃ G, F = b.chunks q.items + G) : Resolves reps self F := by
  intro x v hx
  cases x with
  | value w =>
      cases hx
      exact ⟨_, rfl, reads_value F _⟩
  | element l i =>
      rw [Operand.value?] at hx
      split at hx
      next => exact nomatch hx
      next hne =>
        obtain ⟨q, hq, hi⟩ := Option.bind_eq_some_iff.mp hx
        obtain ⟨b, hl, hb⟩ := exists_array hq
        obtain ⟨G, hG⟩ := hF l b q hne hl
        refine ⟨.element b.begin i, ?_, reads_element hG hi⟩
        rw [Operand.resolve, hb]
        rfl

theorem resolves_frame (reps : List (Rep T)) (k : Nat) :
    Resolves reps (some k) (frame reps k) :=
  resolves fun _ _ _ hne hl => ⟨_, frame_eq hl fun heq => hne (congrArg some heq)⟩

theorem resolves_all (reps : List (Rep T)) : Resolves reps none (reps.map owned).sum :=
  resolves fun _ _ _ _ hl => ⟨_, sum_eq hl⟩

theorem ends_given {α β : Type} {x : Option α} {y : α} (hx : x = some y) {f : α → Exec T β}
    {Q : β → Memory T → Prop} (hf : Ends allowed (f y) m Q) :
    Ends allowed (given x >>= f) m Q := by
  rw [hx]
  exact hf

theorem resolves_mapM {resolve : Operand T → Option (Arg T)} {value : Operand T → Option T}
    {F : Multiset (Chunk T)}
    (hresolve : ∀ x v, value x = some v → ∃ arg, resolve x = some arg ∧ Reads F arg v)
    {xs : List (Operand T)} {ws : List T} (hws : xs.mapM value = some ws) :
    ws.length = xs.length ∧
      ∃ args, xs.mapM resolve = some args ∧ List.Forall₂ (Reads F) args ws := by
  induction xs generalizing ws with
  | nil =>
      cases hws
      exact ⟨rfl, [], rfl, .nil⟩
  | cons x xs ih =>
      rw [List.mapM_cons] at hws
      obtain ⟨v, hv, hrest⟩ := Option.bind_eq_some_iff.mp hws
      obtain ⟨ws', hws', heq⟩ := Option.bind_eq_some_iff.mp hrest
      cases heq
      obtain ⟨arg, harg, hread⟩ := hresolve x v hv
      obtain ⟨hlength, args, hargs, hreads⟩ := ih hws'
      refine ⟨congrArg _ hlength, arg :: args, ?_, .cons hread hreads⟩
      rw [List.mapM_cons, harg, hargs]
      rfl

/-! ## One operation -/

theorem Change.ends {resolve : Operand T → Option (Arg T)} {value : Operand T → Option T}
    {N : Nat} {vs ws : List T} {F : Multiset (Chunk T)} (c : Change T)
    (h : Owns traits N vs F a m) (hplain : c.plain traits.default value vs = some ws)
    (hresolve : ∀ x v, value x = some v → ∃ arg, resolve x = some arg ∧ Reads F arg v)
    (hrange : ∀ index count arg, c = .insertCopies index count arg → count ≠ 0 →
      vs.length + count < 2 ^ 64)
    (hrefuse : MayRefuse traits allowed (c.needs vs.length)) :
    Ends allowed (c.run traits resolve a) m (Owns traits N ws F) := by
  cases c with
  | pushBack arg =>
      obtain ⟨v, hv, rfl⟩ := Option.map_eq_some_iff.mp hplain
      obtain ⟨r, hr, hread⟩ := hresolve arg v hv
      exact ends_given hr (ends_pushBack h hread hrefuse)
  | append args =>
      obtain ⟨us, hus, rfl⟩ := Option.map_eq_some_iff.mp hplain
      obtain ⟨hlength, rs, hrs, hreads⟩ := resolves_mapM hresolve hus
      rw [Change.needs, ← hlength] at hrefuse
      exact ends_given hrs (ends_append h hreads hrefuse)
  | insert index arg =>
      rw [Change.plain] at hplain
      split at hplain
      next hindex =>
        obtain ⟨v, hv, rfl⟩ := Option.map_eq_some_iff.mp hplain
        obtain ⟨r, hr, hread⟩ := hresolve arg v hv
        refine ends_given hr ((ends_insert h hread hindex hrefuse).bind ?_)
        rintro ⟨a', i⟩ m' ⟨h', -⟩
        exact ends_pure h'
      next => exact nomatch hplain
  | insertCopies index count arg =>
      rw [Change.plain] at hplain
      split at hplain
      next hindex =>
        obtain ⟨v, hv, rfl⟩ := Option.map_eq_some_iff.mp hplain
        obtain ⟨r, hr, hread⟩ := hresolve arg v hv
        have hcount := hrange index count arg rfl
        refine ends_given hr ((ends_insertCopies h hread hindex hcount hrefuse).bind ?_)
        rintro ⟨a', i⟩ m' ⟨h', -⟩
        exact ends_pure h'
      next => exact nomatch hplain
  | insertRange index args =>
      rw [Change.plain] at hplain
      split at hplain
      next hindex =>
        obtain ⟨us, hus, rfl⟩ := Option.map_eq_some_iff.mp hplain
        obtain ⟨hlength, rs, hrs, hreads⟩ := resolves_mapM hresolve hus
        rw [Change.needs, ← hlength] at hrefuse
        refine ends_given hrs ((ends_insertRange h hreads hindex hrefuse).bind ?_)
        rintro ⟨a', i⟩ m' ⟨h', -⟩
        exact ends_pure h'
      next => exact nomatch hplain
  | popBack =>
      rw [Change.plain] at hplain
      split at hplain
      next => exact nomatch hplain
      next hne =>
        cases hplain
        rw [← List.dropLast_concat_getLast hne] at h
        exact ends_popBack h
  | erase index =>
      rw [Change.plain] at hplain
      split at hplain
      next hlt =>
        cases hplain
        refine (ends_erase h hlt).bind ?_
        rintro ⟨a', i⟩ m' ⟨h', -⟩
        exact ends_pure h'
      next => exact nomatch hplain
  | eraseRange first last =>
      rw [Change.plain] at hplain
      split at hplain
      next hle =>
        cases hplain
        refine (ends_eraseRange h hle.1 hle.2).bind ?_
        rintro ⟨a', i⟩ m' ⟨h', -⟩
        exact ends_pure h'
      next => exact nomatch hplain
  | clear =>
      cases hplain
      exact ends_clear h
  | reserve n =>
      cases hplain
      exact (ends_reserve h hrefuse).mono fun _ _ h' => h'.1
  | resize n =>
      cases hplain
      exact ends_resizeWith h (reads_value F _) hrefuse
  | resizeValue n arg =>
      obtain ⟨v, hv, rfl⟩ := Option.map_eq_some_iff.mp hplain
      obtain ⟨r, hr, hread⟩ := hresolve arg v hv
      exact ends_given hr (ends_resizeWith h hread hrefuse)
  | assignList args =>
      obtain ⟨hlength, rs, hrs, hreads⟩ := resolves_mapM hresolve hplain
      rw [Change.needs, ← hlength] at hrefuse
      exact ends_given hrs (ends_assignList h hreads hrefuse)

/-- New arrays. -/
theorem ends_createCopy {N M : Nat} {ws : List T} {F : Multiset (Chunk T)} {rhs : VarSizeArray}
    (hr : Fits traits M ws rhs) (hv : m.view = rhs.chunks ws + F)
    (hrefuse : MayRefuse traits allowed (max N ws.length)) :
    Ends allowed (VarSizeArray.createCopy traits N rhs) m fun a m' =>
      Both traits N ws M ws F a rhs m' := by
  refine (ends_create hv (hrefuse.mono (Nat.le_max_left ..))).bind fun a m₁ h₁ => ?_
  exact ends_copyAssign (h₁.both hr) (hrefuse.mono (Nat.le_max_right ..))

theorem ends_createMove {N M : Nat} {ws : List T} {F : Multiset (Chunk T)} {rhs : VarSizeArray}
    (hr : Fits traits M ws rhs) (hv : m.view = rhs.chunks ws + F)
    (hrefuse : MayRefuse traits allowed (max N ws.length)) :
    Ends allowed (VarSizeArray.createMove traits N rhs) m fun r m' =>
      Both traits N ws M [] F r.1 r.2 m' := by
  refine (ends_create hv (hrefuse.mono (Nat.le_max_left ..))).bind fun a m₁ h₁ => ?_
  exact ends_moveAssign (h₁.both hr) (hrefuse.mono (Nat.le_max_right ..))

theorem listsOf_set (rep : Rep T) :
    listsOf (reps.set k rep) = (listsOf reps).set k (rep.map Prod.snd) := List.map_set ..

theorem arraysOf_set (rep : Rep T) :
    arraysOf (reps.set k rep) = (arraysOf reps).set k (rep.map Prod.fst) := List.map_set ..

/-- After an operation the arrays stand for the lists after it. -/
def Follows (traits : ElementTraits T) (lists : List (Option (PlainList T)))
    (arrays : List (Option VarSizeArray)) (m : Memory T) : Prop :=
  ∃ reps, arrays = arraysOf reps ∧ lists = listsOf reps ∧ Refines traits reps m

theorem Refines.follows_set {rep : Rep T} (h : Refines traits (reps.set k rep) m) :
    Follows traits ((listsOf reps).set k (rep.map Prod.snd))
      ((arraysOf reps).set k (rep.map Prod.fst)) m :=
  ⟨_, (arraysOf_set rep).symm, (listsOf_set rep).symm, h⟩

theorem Refines.follows_set₂ {rep rep' : Rep T}
    (h : Refines traits ((reps.set k rep).set l rep') m) :
    Follows traits (((listsOf reps).set k (rep.map Prod.snd)).set l (rep'.map Prod.snd))
      (((arraysOf reps).set k (rep.map Prod.fst)).set l (rep'.map Prod.fst)) m := by
  rw [← listsOf_set, ← arraysOf_set]
  exact h.follows_set

theorem AllFit.follows_concat (h : AllFit traits reps)
    (ha : Owns traits p.inlineCapacity p.items (reps.map owned).sum a m) :
    Follows traits (listsOf reps ++ [some p]) (arraysOf reps ++ [some a]) m := by
  refine ⟨reps ++ [some (a, p)], ?_, ?_, h.concat ha⟩
  · show _ = (reps ++ [some (a, p)]).map (Option.map Prod.fst)
    rw [List.map_append]
    rfl
  · show _ = (reps ++ [some (a, p)]).map (Option.map Prod.snd)
    rw [List.map_append]
    rfl

/-- A list is not changed when it is replaced by itself. -/
theorem set_self {α : Type} {xs : List (Option α)} {x : α} (h : xs[k]?.join = some x) :
    xs.set k (some x) = xs := by
  obtain ⟨y, hy, rfl⟩ := Option.bind_eq_some_iff.mp h
  obtain ⟨hlt, hget⟩ := List.getElem?_eq_some_iff.mp hy
  have hset := List.set_getElem_self hlt
  rwa [hget] at hset

theorem Op.ends (op : Op T) (h : Refines traits reps m) {lists : List (Option (PlainList T))}
    (hplain : op.plain traits.default (listsOf reps) = some lists)
    (hrange : op.InRange (listsOf reps))
    (hrefuse : MayRefuse traits allowed (op.needs (listsOf reps))) :
    Ends allowed (op.run traits (arraysOf reps)) m (Follows traits lists) := by
  cases op with
  | create N args =>
      obtain ⟨items, hitems, heq⟩ := Option.bind_eq_some_iff.mp hplain
      cases heq
      obtain ⟨hlength, rs, hrs, hreads⟩ := resolves_mapM (resolves_all reps) hitems
      rw [Op.needs, ← hlength] at hrefuse
      refine ends_given hrs ((ends_createFrom h.view hreads hrefuse).bind fun a m' ha => ?_)
      exact ends_pure (h.fits.follows_concat (p := ⟨N, items⟩) ha)
  | createCopy N k =>
      obtain ⟨q, hq, heq⟩ := Option.bind_eq_some_iff.mp hplain
      cases heq
      obtain ⟨b, hk, hb⟩ := exists_array hq
      rw [Op.needs, sizeOf_eq hq] at hrefuse
      refine ends_given hb ((ends_createCopy (h.owns hk).toFits (h.owns hk).view hrefuse).bind
        fun a m' hboth => ?_)
      have ha := hboth.owns
      rw [← sum_eq hk] at ha
      exact ends_pure (h.fits.follows_concat (p := ⟨N, q.items⟩) ha)
  | createMove N k =>
      obtain ⟨q, hq, heq⟩ := Option.bind_eq_some_iff.mp hplain
      cases heq
      obtain ⟨b, hk, hb⟩ := exists_array hq
      have hlt := (List.getElem?_eq_some_iff.mp hk).1
      rw [Op.needs, sizeOf_eq hq] at hrefuse
      refine ends_given hb ((ends_createMove (h.owns hk).toFits (h.owns hk).view hrefuse).bind ?_)
      rintro ⟨a, b'⟩ m' hboth
      have hfit := h.fits.set (k := k) (p := { q with items := [] }) hboth.right
      have ha := hboth.owns
      have hsum : ((reps.set k (some (b', { q with items := [] }))).map owned).sum =
          b'.chunks [] + frame reps k := sum_set _ hlt
      rw [← hsum] at ha
      have hfollows := hfit.follows_concat (p := ⟨N, q.items⟩) ha
      rw [listsOf_set, arraysOf_set] at hfollows
      exact ends_pure hfollows
  | destruct k =>
      obtain ⟨p, hp, heq⟩ := Option.bind_eq_some_iff.mp hplain
      cases heq
      obtain ⟨a, hk, ha⟩ := exists_array hp
      refine ends_given ha ((ends_destruct (h.owns hk)).bind fun _ m' hv => ?_)
      exact ends_pure (h.set_none hv).follows_set
  | change k c =>
      obtain ⟨p, hp, hrest⟩ := Option.bind_eq_some_iff.mp hplain
      obtain ⟨items, hitems, heq⟩ := Option.bind_eq_some_iff.mp hrest
      cases heq
      obtain ⟨a, hk, ha⟩ := exists_array hp
      rw [Op.needs, sizeOf_eq hp] at hrefuse
      refine ends_given ha ((Change.ends c (h.owns hk) hitems (resolves_frame reps k) ?_
        hrefuse).bind fun a' m' h' => ?_)
      · rintro index count arg rfl
        rw [Op.InRange, sizeOf_eq hp] at hrange
        exact hrange
      · have hlt := (List.getElem?_eq_some_iff.mp hk).1
        exact ends_pure (h.set (p := { p with items := items }) hlt h').follows_set
  | swap k l =>
      obtain ⟨p, hp, hrest⟩ := Option.bind_eq_some_iff.mp hplain
      obtain ⟨q, hq, heq⟩ := Option.bind_eq_some_iff.mp hrest
      cases heq
      obtain ⟨a, hk, ha⟩ := exists_array hp
      obtain ⟨b, hl, hb⟩ := exists_array hq
      have hltk := (List.getElem?_eq_some_iff.mp hk).1
      have hltl := (List.getElem?_eq_some_iff.mp hl).1
      rw [Op.needs, sizeOf_eq hp, sizeOf_eq hq] at hrefuse
      refine ends_given ha (ends_given hb ?_)
      split
      next hsame =>
        subst hsame
        cases hp.symm.trans hq
        rw [set_self hp, set_self hp]
        exact ends_pure ⟨reps, rfl, rfl, h⟩
      next hne =>
        refine (ends_swap (h.both hk hl hne) hrefuse).bind ?_
        rintro ⟨a', b'⟩ m' hboth
        have h' := h.set₂ (p := { p with items := q.items }) (q := { q with items := p.items })
          hltk hltl hne hboth
        exact ends_pure h'.follows_set₂
  | copyAssign k l =>
      obtain ⟨p, hp, hrest⟩ := Option.bind_eq_some_iff.mp hplain
      obtain ⟨q, hq, heq⟩ := Option.bind_eq_some_iff.mp hrest
      cases heq
      obtain ⟨a, hk, ha⟩ := exists_array hp
      obtain ⟨b, hl, hb⟩ := exists_array hq
      have hltk := (List.getElem?_eq_some_iff.mp hk).1
      rw [Op.needs, sizeOf_eq hq] at hrefuse
      refine ends_given ha (ends_given hb ?_)
      split
      next hsame =>
        subst hsame
        cases hp.symm.trans hq
        rw [set_self hp]
        exact ends_pure ⟨reps, rfl, rfl, h⟩
      next hne =>
        refine (ends_copyAssign (h.both hk hl hne) hrefuse).bind fun a' m' hboth => ?_
        have h' := hboth.owns
        rw [← frame_eq hl hne] at h'
        exact ends_pure (h.set (p := { p with items := q.items }) hltk h').follows_set
  | moveAssign k l =>
      obtain ⟨p, hp, hrest⟩ := Option.bind_eq_some_iff.mp hplain
      obtain ⟨q, hq, heq⟩ := Option.bind_eq_some_iff.mp hrest
      cases heq
      obtain ⟨a, hk, ha⟩ := exists_array hp
      obtain ⟨b, hl, hb⟩ := exists_array hq
      have hltk := (List.getElem?_eq_some_iff.mp hk).1
      have hltl := (List.getElem?_eq_some_iff.mp hl).1
      rw [Op.needs, sizeOf_eq hq] at hrefuse
      refine ends_given ha (ends_given hb ?_)
      by_cases hsame : k = l
      · rw [if_pos hsame, if_pos hsame]
        exact ends_pure ⟨reps, rfl, rfl, h⟩
      · rw [if_neg hsame, if_neg hsame]
        refine (ends_moveAssign (h.both hk hl hsame) hrefuse).bind ?_
        rintro ⟨a', b'⟩ m' hboth
        have h' := h.set₂ (p := { p with items := q.items }) (q := { q with items := [] })
          hltk hltl hsame hboth
        exact ends_pure h'.follows_set₂

/-! ## Sequences of operations -/

/-- A condition on every operation of a sequence and the lists that it is done to. -/
def Along (default : T) (P : List (Option (PlainList T)) → Op T → Prop) :
    List (Op T) → List (Option (PlainList T)) → Prop
  | [], _ => True
  | op :: ops, lists =>
      P lists op ∧ ∀ lists', op.plain default lists = some lists' → Along default P ops lists'

theorem Along.mono {default : T} {P Q : List (Option (PlainList T)) → Op T → Prop}
    (h : ∀ lists op, P lists op → Q lists op) {ops : List (Op T)}
    {lists : List (Option (PlainList T))} (hP : Along default P ops lists) :
    Along default Q ops lists := by
  induction ops generalizing lists with
  | nil => trivial
  | cons op ops ih => exact ⟨h _ _ hP.1, fun lists' hplain => ih (hP.2 lists' hplain)⟩

theorem along_of_forall {default : T} {P : List (Option (PlainList T)) → Op T → Prop}
    (h : ∀ lists op, P lists op) (ops : List (Op T)) (lists : List (Option (PlainList T))) :
    Along default P ops lists := by
  induction ops generalizing lists with
  | nil => trivial
  | cons op ops ih => exact ⟨h _ _, fun lists' _ => ih lists'⟩

theorem ends_runAll (h : Refines traits reps m) {ops : List (Op T)}
    {lists : List (Option (PlainList T))}
    (hplain : plainAll traits.default ops (listsOf reps) = some lists)
    (hrange : Along traits.default (fun lists op => op.InRange lists) ops (listsOf reps))
    (hrefuse : Along traits.default (fun lists op => MayRefuse traits allowed (op.needs lists)) ops
      (listsOf reps)) :
    Ends allowed (runAll traits ops (arraysOf reps)) m (Follows traits lists) := by
  induction ops generalizing reps m with
  | nil =>
      cases hplain
      exact ends_pure ⟨reps, rfl, rfl, h⟩
  | cons op ops ih =>
      obtain ⟨lists', hop, hops⟩ := Option.bind_eq_some_iff.mp hplain
      refine (op.ends h hop hrange.1 hrefuse.1).bind ?_
      rintro _ m' ⟨reps', rfl, rfl, h'⟩
      exact ih h' hops (hrange.2 _ hop) (hrefuse.2 _ hop)

/-! ## What can be observed -/

/-- The values of the elements. -/
def contents (a : VarSizeArray) (m : Memory T) : Option (List T) :=
  match readCells a.begin 0 a.size m with
  | .ok (vs, _) => some vs
  | .error _ => none

/-- An array shows the items of a list. -/
structure Shows (p : PlainList T) (m : Memory T) (a : VarSizeArray) : Prop where
  contents : a.contents m = some p.items
  size : a.size = p.items.length
  size_le : a.size ≤ a.capacity
  inline_le : a.isInline = true → a.size ≤ p.inlineCapacity

/-- Arrays show the items of lists, their buffers are apart, no element has been destroyed twice,
and every element has been destroyed, and every buffer released, when no array is left. -/
structure Sound (lists : List (Option (PlainList T))) (arrays : List (Option VarSizeArray))
    (m : Memory T) : Prop where
  shows : List.Forall₂ (Option.Rel fun a p => Shows p m a) arrays lists
  apart : ∀ (k l : Nat) (a b : VarSizeArray), k ≠ l → arrays[k]? = some (some a) →
    arrays[l]? = some (some b) → a.begin ≠ b.begin ∧ a.begin ≠ b.inlineBegin
  once : m.destroyed.Nodup
  all : (∀ p ∈ lists, p = none) →
    m.blocks = [] ∧ m.destroyed.Perm (List.range m.constructed)

theorem Owns.shows {F : Multiset (Chunk T)}
    (h : Owns traits p.inlineCapacity p.items F a m) : Shows p m a where
  contents := by
    have hv := h.buffer
    rw [cells_front] at hv
    have hread : Ends (fun _ => False) (readCells a.begin 0 p.items.length) m _ :=
      ends_readCells hv rfl
    rw [contents, h.size]
    rw [Ends] at hread
    split at hread
    next heq =>
      rw [heq, hread.1]
    next => exact hread.elim
  size := h.size
  size_le := h.size.trans_le h.le
  inline_le := fun hinline => h.size.trans_le (h.le.trans_eq (h.inline hinline))

theorem get_arraysOf (h : (arraysOf reps)[k]? = some (some a)) :
    ∃ p, reps[k]? = some (some (a, p)) := by
  rw [arraysOf, List.getElem?_map] at h
  obtain ⟨rep, hk, hrep⟩ := Option.map_eq_some_iff.mp h
  obtain ⟨⟨a', p⟩, rfl, rfl⟩ := Option.map_eq_some_iff.mp hrep
  exact ⟨p, hk⟩

theorem Refines.sound (h : Refines traits reps m) : Sound (listsOf reps) (arraysOf reps) m where
  shows := by
    rw [arraysOf, listsOf, List.forall₂_map_left_iff, List.forall₂_map_right_iff,
      List.forall₂_same]
    intro rep hrep
    obtain ⟨k, hk⟩ := List.mem_iff_getElem?.mp hrep
    cases rep with
    | none => exact .none
    | some ap => exact .some (h.owns hk).shows
  apart := by
    intro k l a b hne hk hl
    obtain ⟨p, hk⟩ := get_arraysOf hk
    obtain ⟨q, hl⟩ := get_arraysOf hl
    have hboth := h.both hk hl hne
    refine ⟨?_, hboth.symm.begin_ne⟩
    have hv := hboth.buffers
    exact ne_of_view hv (Multiset.mem_add.mpr (.inl (Multiset.mem_singleton_self _)))
  once := nodup_destroyed m
  all := by
    intro hnone
    have hv : m.view = 0 := by
      rw [h.view]
      refine List.sum_eq_zero fun F hF => ?_
      obtain ⟨rep, hrep, rfl⟩ := List.mem_map.mp hF
      cases rep with
      | none => rfl
      | some ap => exact nomatch hnone _ (List.mem_map_of_mem hrep)
    exact ⟨List.map_eq_nil_iff.mp ((Multiset.coe_eq_zero _).mp hv), perm_destroyed hv⟩

/-- The memory suffices for an operation. -/
def Op.Affordable (traits : ElementTraits T) (lists : List (Option (PlainList T))) (op : Op T) :
    Prop := 2 * op.needs lists + 4 ≤ traits.maxSize

/-- Operations do to arrays what they do to lists, unless one that needs too much memory is
refused it. -/
def RunsAsLists (traits : ElementTraits T) (ops : List (Op T)) : Prop :=
  ∀ lists, plainAll traits.default ops [] = some lists →
    Ends (fun fault => fault = .outOfMemory ∧
      ¬ Along traits.default (Op.Affordable traits) ops []) (runAll traits ops []) .empty
        (Sound lists)

/-- Sequences of operations whose requests for copies do not overflow. -/
theorem runsAsLists {ops : List (Op T)}
    (hrange : Along traits.default (fun lists op => op.InRange lists) ops []) :
    RunsAsLists traits ops := by
  intro lists hplain
  have hempty : Refines traits [] (.empty : Memory T) := ⟨nofun, rfl⟩
  refine (ends_runAll hempty hplain hrange ?_).mono ?_
  · by_cases hafford : Along traits.default (Op.Affordable traits) ops []
    · refine hafford.mono fun lists op hop hlt => ?_
      exact absurd hop (Nat.not_le.mpr hlt)
    · exact along_of_forall (fun _ _ _ => ⟨rfl, hafford⟩) ops []
  · rintro _ m ⟨reps, rfl, rfl, h⟩
    exact h.sound

/-- Numbers, which are not changed when they are moved from. -/
def numbers : ElementTraits Nat := ⟨0, id, 100, by decide⟩

/-- An array that is filled, moved, swapped with the rest of itself, and destroyed. -/
def movedOps : List (Op Nat) :=
  [.create 1 [.value 7], .change 0 (.insertCopies 0 2 (.value 1)), .createMove 4 0, .swap 0 1,
    .destruct 0, .destruct 1]

theorem runsAsLists_moved : RunsAsLists numbers movedOps := by
  refine runsAsLists ?_
  refine ⟨trivial, fun lists h => ?_⟩
  obtain rfl : [some ⟨1, [7]⟩] = lists := Option.some.inj h
  refine ⟨fun _ => (by decide : 1 + 2 < 2 ^ 64), fun _ _ => ?_⟩
  exact ⟨trivial, fun _ _ => ⟨trivial, fun _ _ => ⟨trivial, fun _ _ => ⟨trivial, fun _ _ =>
    trivial⟩⟩⟩⟩

/-- A request for more copies than `size_type` can count along with the element. -/
def overflowingOps : List (Op Nat) :=
  [.create 1 [.value 7], .change 0 (.insertCopies 0 (2 ^ 64 - 1) (.value 1))]

/-- The request reserves nothing, and the first copy is constructed behind the buffer. -/
theorem not_runsAsLists : ¬ ∀ (traits : ElementTraits Nat) (ops : List (Op Nat)),
    RunsAsLists traits ops := by
  intro h
  have hrun : runAll numbers overflowingOps [] .empty = .error .noCell := rfl
  have hends := h numbers overflowingOps _ rfl
  rw [Ends, hrun] at hends
  cases hends.1

end Lorelei.Support.VarSizeArray
