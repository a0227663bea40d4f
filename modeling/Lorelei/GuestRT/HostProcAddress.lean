import Lorelei.DLCall.EntrySources
import Lorelei.HostRT.Discovered

/-!
# Guest functions for host functions

`GuestClient::convertHostProcAddress`: a host function that a program has looked up by name
becomes the function of that name in a guest thunk library. The reversed entry of the host
library lists thunks to try. The constructors of a library that is opened on the way ask the
server themselves, so packs may be loaded in the middle of the loop.

An entry that has been found is not lost, so a conversion that has succeeded succeeds again
(`convertHostProcAddress_again`).
-/

namespace Lorelei.GuestRT

open Support DLCall HostRT

variable {Dir Lib : Type} [DecidableEq Lib]

/-- What the dynamic linkers on both sides know. -/
structure Linker (Lib : Type) where
  /-- The host library that an address lies in. -/
  modulePath : Nat → Option Str
  /-- The guest library that a path leads to, if it can be opened. -/
  library : Str → Option Lib
  /-- The requests of its constructors, when it is opened by a path. -/
  asks : Lib → Str → List Request
  symbol : Lib → Str → Option Nat

/-- A process: the server in the host runtime, and the libraries that the guest has opened. -/
structure Process (Lib : Type) where
  server : HostServer
  loaded : List Lib

namespace Process

variable (linker : Linker Lib) (inst : Installation Dir)

abbrev thunkDatabase (p : Process Lib) : ThunkDatabase := p.server.thunkDatabase

/-- At first the server has been configured, and no library is open. -/
def start (inst : Installation Dir) : Process Lib := ⟨configureThunkDiscovery inst, []⟩

/-- `GuestClient::getThunkInfo`. -/
def getThunkInfo (p : Process Lib) (r : Request) : Option Nat × Process Lib :=
  let (info, server) := p.server.getThunkInfo inst r
  (info, { p with server })

/-- `dlopen` with `RTLD_NOLOAD`. -/
def dlopenNoLoad (p : Process Lib) (path : Str) : Option Lib :=
  (linker.library path).filter (· ∈ p.loaded)

/-- `dlopen`. -/
def dlopen (p : Process Lib) (path : Str) : Option Lib × Process Lib :=
  match linker.library path with
  | none => (none, p)
  | some lib =>
      if lib ∈ p.loaded then (some lib, p)
      else (some lib, ⟨p.server.run inst (linker.asks lib path), lib :: p.loaded⟩)

/-- `convertHostProcAddress_helper`; the entry is read through its address. -/
def convertHostProcAddressHelper (p : Process Lib) (info : Nat) (name : Str) :
    Option Nat × Process Lib :=
  let path := p.thunkDatabase.forwardThunks[info]?.elim []
    fun thunkInfo => p.thunkDatabase.string thunkInfo.guestThunk
  match p.dlopenNoLoad linker path with
  | some handle => (linker.symbol handle name, p)
  | none =>
      match p.dlopen linker inst path with
      | (none, p) => (none, p)
      | (some handle, p) => (linker.symbol handle name, p)

/-- One attempt, with the entry of a guest thunk. -/
def tryThunk (p : Process Lib) (thunk name : Str) : Option Nat × Process Lib :=
  match p.getThunkInfo inst ⟨some thunk, false⟩ with
  | (none, p) => (none, p)
  | (some forward, p) => p.convertHostProcAddressHelper linker inst forward name

/-- The thunk at a position of the list of a reversed entry, read through the addresses. -/
def reversedThunkAt (p : Process Lib) (info i : Nat) : Str :=
  p.thunkDatabase.reversedThunks[info]?.elim [] fun thunkInfo =>
    (p.thunkDatabase.readReversed thunkInfo).thunks.getD i []

/-- The loop over the positions of a list. -/
def tryPositions (name : Str) (reversed : Nat) :
    List Nat → Process Lib → Option Nat × Process Lib
  | [], p => (none, p)
  | i :: rest, p =>
      match p.tryThunk linker inst (p.reversedThunkAt reversed i) name with
      | (some func, p) => (some func, p)
      | (none, p) => tryPositions name reversed rest p

/-- `convertHostProcAddress`. An entry keeps its list, so the number of turns is known before
the loop. -/
def convertHostProcAddress (p : Process Lib) (name : Str) (addr : Nat) :
    Option Nat × Process Lib :=
  match linker.modulePath addr with
  | none => (none, p)
  | some hostLibPath =>
      match p.getThunkInfo inst ⟨some hostLibPath, true⟩ with
      | (none, p) => p.tryThunk linker inst hostLibPath name
      | (some reversed, p) =>
          let count := p.thunkDatabase.reversedThunks[reversed]?.elim 0
            fun thunkInfo => (p.thunkDatabase.readReversed thunkInfo).thunks.length
          p.tryPositions linker inst name reversed (List.range count)

/-- What happens in a guest program, as far as the server hears of it. -/
inductive Event where
  | getThunkInfo (r : Request)
  | dlopen (path : Str)
  | convertHostProcAddress (name : Str) (addr : Nat)

def step (p : Process Lib) : Event → Process Lib
  | .getThunkInfo r => (p.getThunkInfo inst r).2
  | .dlopen path => (p.dlopen linker inst path).2
  | .convertHostProcAddress name addr => (p.convertHostProcAddress linker inst name addr).2

def run (p : Process Lib) (events : List Event) : Process Lib :=
  events.foldl (fun p event => p.step linker inst event) p

end Process

/-! ## What is there stays -/

/-- The database is well formed, and its indexes hold the first owner of each name. -/
structure Indexed (db : ThunkDatabase) : Prop where
  valid : db.Valid
  firstKept : db.FirstKept

/-- A database that takes the place of another one finds at least what that one found. -/
structure Grows (db db' : ThunkDatabase) : Prop where
  indexed : Indexed db'
  preserved : ThunkDatabase.Preserved db db'

variable {db db' db'' : ThunkDatabase}

theorem Grows.refl (h : Indexed db) : Grows db db where
  indexed := h
  preserved := by
    constructor
    · intro k i hi
      have hlt : i < db.forwardThunks.length := by
        rw [h.firstKept.forward] at hi
        exact FirstOwner.firstOwner_lt hi
      exact ⟨hi, _, List.getElem?_eq_getElem hlt, List.getElem?_eq_getElem hlt, rfl⟩
    · intro k i hi
      have hlt : i < db.reversedThunks.length := by
        rw [h.firstKept.reversed] at hi
        exact FirstOwner.firstOwner_lt hi
      exact ⟨hi, _, List.getElem?_eq_getElem hlt, List.getElem?_eq_getElem hlt, rfl⟩

theorem Grows.trans (h : Grows db db') (h' : Grows db' db'') : Grows db db'' where
  indexed := h'.indexed
  preserved := by
    constructor
    · intro k i hi
      obtain ⟨hi', info, hinfo, hinfo', hread⟩ := h.preserved.forward k i hi
      obtain ⟨hi'', info', hsame, hinfo'', hread'⟩ := h'.preserved.forward k i hi'
      obtain rfl : info = info' := Option.some.inj (hinfo'.symm.trans hsame)
      exact ⟨hi'', info, hinfo, hinfo'', hread'.trans hread⟩
    · intro k i hi
      obtain ⟨hi', info, hinfo, hinfo', hread⟩ := h.preserved.reversed k i hi
      obtain ⟨hi'', info', hsame, hinfo'', hread'⟩ := h'.preserved.reversed k i hi'
      obtain rfl : info = info' := Option.some.inj (hinfo'.symm.trans hsame)
      exact ⟨hi'', info, hinfo, hinfo'', hread'.trans hread⟩

theorem Grows.findForward (h : Grows db db') {k : Str} {entry : ForwardThunk}
    (hk : db.findForward k = some entry) : db'.findForward k = some entry := by
  obtain ⟨i, hi, hentry⟩ := Option.bind_eq_some_iff.mp hk
  obtain ⟨info, hinfo, rfl⟩ := Option.map_eq_some_iff.mp hentry
  obtain ⟨hi', info', hsame, hinfo', hread⟩ := h.preserved.forward k i hi
  obtain rfl : info = info' := Option.some.inj (hinfo.symm.trans hsame)
  rw [ThunkDatabase.findForward, hi', Option.bind_some, hinfo', Option.map_some, hread]

theorem Grows.findReversed (h : Grows db db') {k : Str} {entry : ReversedThunk}
    (hk : db.findReversed k = some entry) : db'.findReversed k = some entry := by
  obtain ⟨i, hi, hentry⟩ := Option.bind_eq_some_iff.mp hk
  obtain ⟨info, hinfo, rfl⟩ := Option.map_eq_some_iff.mp hentry
  obtain ⟨hi', info', hsame, hinfo', hread⟩ := h.preserved.reversed k i hi
  obtain rfl : info = info' := Option.some.inj (hinfo.symm.trans hsame)
  rw [ThunkDatabase.findReversed, hi', Option.bind_some, hinfo', Option.map_some, hread]

section Server

variable (inst : Installation Dir)

theorem grows_visit {s : HostServer} (h : Indexed s.thunkDatabase) (v : Visit) :
    Grows s.thunkDatabase (s.visit inst v).thunkDatabase := by
  rw [HostServer.visit]
  simp only
  split
  · exact ⟨⟨ThunkDatabase.loadPack_valid h.valid _, ThunkDatabase.firstKept_rebuildIndexes _⟩,
      ThunkDatabase.loadPack_preserved h.valid h.firstKept _⟩
  · exact .refl h

theorem grows_server {s : HostServer} (h : Indexed s.thunkDatabase) (r : Request) :
    Grows s.thunkDatabase (s.getThunkInfo inst r).2.thunkDatabase := by
  rcases getThunkInfo_cases inst s r with hsame | ⟨prefixPath, -, -, -, -, hvisit⟩
  · rw [hsame]
    exact .refl h
  · rw [hvisit]
    exact grows_visit inst h _

theorem grows_requests {s : HostServer} (h : Indexed s.thunkDatabase) (requests : List Request) :
    Grows s.thunkDatabase (s.run inst requests).thunkDatabase := by
  induction requests generalizing s with
  | nil => exact .refl h
  | cons r requests ih =>
      have hone := grows_server inst h r
      exact hone.trans (ih hone.indexed)

end Server

/-! ## One thunk -/

/-- The name under which a path or a thunk is looked up. -/
def lookupName (path : Str) : Str := thunkNameOf (Request.text ⟨some path, false⟩)

/-- The entry of a thunk leads to a library with this function. -/
def Finds (linker : Linker Lib) (db : ThunkDatabase) (thunk name : Str) (func : Nat) : Prop :=
  ∃ entry lib, db.findForward (lookupName thunk) = some entry ∧
    linker.library entry.guestThunk = some lib ∧ linker.symbol lib name = some func

omit [DecidableEq Lib] in
theorem Finds.grows {linker : Linker Lib} {thunk name : Str} {func : Nat}
    (h : Finds linker db thunk name func) (hgrows : Grows db db') :
    Finds linker db' thunk name func := by
  obtain ⟨entry, lib, hentry, hlib⟩ := h
  exact ⟨entry, lib, hgrows.findForward hentry, hlib⟩

namespace Process

variable (linker : Linker Lib) (inst : Installation Dir) {p : Process Lib}

theorem grows_dlopen (h : Indexed p.thunkDatabase) (path : Str) :
    Grows p.thunkDatabase (p.dlopen linker inst path).2.thunkDatabase := by
  rw [dlopen]
  split
  · exact .refl h
  · split
    · exact .refl h
    · exact grows_requests inst h _

section Helper

variable {info : Nat} {thunkInfo : CForwardThunkInfo}
  (hinfo : p.thunkDatabase.forwardThunks[info]? = some thunkInfo) (name : Str)
include hinfo

theorem convertHostProcAddressHelper_eq :
    p.convertHostProcAddressHelper linker inst info name =
      match p.dlopen linker inst (p.thunkDatabase.readForward thunkInfo).guestThunk with
      | (none, p) => (none, p)
      | (some handle, p) => (linker.symbol handle name, p) := by
  simp only [convertHostProcAddressHelper, hinfo, Option.elim_some]
  have hpath : p.thunkDatabase.string thunkInfo.guestThunk =
      (p.thunkDatabase.readForward thunkInfo).guestThunk := rfl
  rw [hpath]
  cases hload : p.dlopenNoLoad linker (p.thunkDatabase.readForward thunkInfo).guestThunk with
  | none => rfl
  | some lib =>
      obtain ⟨hlib, hmem⟩ := Option.filter_eq_some_iff.mp hload
      simp only [dlopen, hlib, if_pos (of_decide_eq_true hmem)]

/-- The library is opened, unless it is open. -/
theorem fst_convertHostProcAddressHelper :
    (p.convertHostProcAddressHelper linker inst info name).1 =
      (linker.library (p.thunkDatabase.readForward thunkInfo).guestThunk).bind
        fun lib => linker.symbol lib name := by
  rw [convertHostProcAddressHelper_eq linker inst hinfo, dlopen]
  cases linker.library (p.thunkDatabase.readForward thunkInfo).guestThunk with
  | none => rfl
  | some lib => by_cases hmem : lib ∈ p.loaded <;> simp [hmem]

theorem grows_convertHostProcAddressHelper (h : Indexed p.thunkDatabase) :
    Grows p.thunkDatabase
      (p.convertHostProcAddressHelper linker inst info name).2.thunkDatabase := by
  have hopen := grows_dlopen linker inst h (p.thunkDatabase.readForward thunkInfo).guestThunk
  rw [convertHostProcAddressHelper_eq linker inst hinfo]
  split
  next hnone => rwa [hnone] at hopen
  next hsome => rwa [hsome] at hopen

end Helper

omit [DecidableEq Lib] in
/-- The server answers with what its database says afterwards. -/
theorem fst_getThunkInfo (thunk : Str) :
    (p.getThunkInfo inst ⟨some thunk, false⟩).1 =
      (p.getThunkInfo inst ⟨some thunk, false⟩).2.thunkDatabase.forwardThunk
        (lookupName thunk) := by
  simp only [getThunkInfo, HostServer.getThunkInfo, HostServer.resolveForwardThunk, lookupName,
    Bool.false_eq_true, if_false]
  cases hfound : p.server.thunkDatabase.forwardThunk
    (thunkNameOf (Request.text ⟨some thunk, false⟩)) with
  | some entry => exact hfound.symm
  | none =>
      simp only
      split
      · exact hfound.symm
      cases packPrefix (Request.text ⟨some thunk, false⟩) with
      | none => exact hfound.symm
      | some prefixPath =>
          simp only
          split
          · exact hfound.symm
          · rfl

omit [DecidableEq Lib] in
theorem grows_getThunkInfo (h : Indexed p.thunkDatabase) (r : Request) :
    Grows p.thunkDatabase (p.getThunkInfo inst r).2.thunkDatabase :=
  grows_server inst h r

/-- What an attempt does: an address is the function that the entry leads to, and there is one
if the entry has been there before. -/
structure Attempt (linker : Linker Lib) (thunk name : Str) (p : Process Lib)
    (r : Option Nat × Process Lib) : Prop where
  grows : Grows p.thunkDatabase r.2.thunkDatabase
  finds : ∀ func, r.1 = some func → Finds linker r.2.thunkDatabase thunk name func
  found : ∀ func, Finds linker p.thunkDatabase thunk name func → r.1 = some func

theorem attempt_tryThunk (h : Indexed p.thunkDatabase) (thunk name : Str) :
    Attempt linker thunk name p (p.tryThunk linker inst thunk name) := by
  have hask := grows_getThunkInfo inst h ⟨some thunk, false⟩
  have hfst := fst_getThunkInfo inst (p := p) thunk
  rw [tryThunk]
  generalize p.getThunkInfo inst ⟨some thunk, false⟩ = answer at hask hfst ⊢
  obtain ⟨info, q⟩ := answer
  simp only at hask hfst
  cases info with
  | none =>
      refine ⟨hask, ?_, ?_⟩
      · intro func hfunc
        cases hfunc
      · intro func hfinds
        obtain ⟨entry, lib, hentry, -⟩ := hfinds.grows hask
        rw [ThunkDatabase.findForward, ← hfst] at hentry
        cases hentry
  | some info =>
      obtain ⟨-, thunkInfo, hinfo, -⟩ := (Grows.refl hask.indexed).preserved.forward _ _ hfst.symm
      have hhelper := grows_convertHostProcAddressHelper linker inst hinfo name hask.indexed
      have hentry : q.thunkDatabase.findForward (lookupName thunk) =
          some (q.thunkDatabase.readForward thunkInfo) := by
        rw [ThunkDatabase.findForward, ← hfst, Option.bind_some, hinfo, Option.map_some]
      refine ⟨hask.trans hhelper, fun func hfunc => ?_, fun func hfinds => ?_⟩
      · rw [fst_convertHostProcAddressHelper linker inst hinfo] at hfunc
        obtain ⟨lib, hlib, hsymbol⟩ := Option.bind_eq_some_iff.mp hfunc
        exact Finds.grows ⟨_, lib, hentry, hlib, hsymbol⟩ hhelper
      · obtain ⟨entry, lib, hfound, hlib, hsymbol⟩ := hfinds.grows hask
        obtain rfl : q.thunkDatabase.readForward thunkInfo = entry :=
          Option.some.inj (hentry.symm.trans hfound)
        rw [fst_convertHostProcAddressHelper linker inst hinfo, hlib, Option.bind_some, hsymbol]

/-! ## The loop -/

/-- The loop over a list of thunks. -/
def tryThunks (name : Str) : List Str → Process Lib → Option Nat × Process Lib
  | [], p => (none, p)
  | thunk :: rest, p =>
      match p.tryThunk linker inst thunk name with
      | (some func, p) => (some func, p)
      | (none, p) => tryThunks name rest p

theorem grows_tryThunks (h : Indexed p.thunkDatabase) (name : Str) (thunks : List Str) :
    Grows p.thunkDatabase (p.tryThunks linker inst name thunks).2.thunkDatabase := by
  induction thunks generalizing p with
  | nil => exact .refl h
  | cons thunk rest ih =>
      have hattempt := (attempt_tryThunk linker inst h thunk name).grows
      rw [tryThunks]
      split
      next hsome => rwa [hsome] at hattempt
      next hnone =>
        rw [hnone] at hattempt
        exact hattempt.trans (ih hattempt.indexed)

/-- An address comes from one of the thunks. -/
theorem finds_tryThunks (h : Indexed p.thunkDatabase) {name : Str} {thunks : List Str} {func : Nat}
    (hfunc : (p.tryThunks linker inst name thunks).1 = some func) :
    ∃ earlier thunk later, thunks = earlier ++ thunk :: later ∧
      Finds linker (p.tryThunks linker inst name thunks).2.thunkDatabase thunk name func := by
  induction thunks generalizing p with
  | nil => cases hfunc
  | cons thunk rest ih =>
      have hattempt := attempt_tryThunk linker inst h thunk name
      rw [tryThunks] at hfunc ⊢
      split at hfunc
      next func' q hsome =>
        rw [hsome] at hattempt
        exact ⟨[], thunk, rest, rfl, hattempt.finds func hfunc⟩
      next q hnone =>
        rw [hnone] at hattempt
        obtain ⟨earlier, thunk', later, rfl, hfinds⟩ := ih hattempt.grows.indexed hfunc
        exact ⟨thunk :: earlier, thunk', later, rfl, hfinds⟩

/-- If a thunk has the function, the loop does not go past it. -/
theorem found_tryThunks (h : Indexed p.thunkDatabase) {name thunk : Str} {func : Nat}
    (earlier later : List Str) (hfinds : Finds linker p.thunkDatabase thunk name func) :
    ∃ func' thunk', (p.tryThunks linker inst name (earlier ++ thunk :: later)).1 = some func' ∧
      thunk' ∈ earlier ++ [thunk] ∧
      Finds linker (p.tryThunks linker inst name (earlier ++ thunk :: later)).2.thunkDatabase
        thunk' name func' := by
  induction earlier generalizing p with
  | nil =>
      have hattempt := attempt_tryThunk linker inst h thunk name
      have hfound := hattempt.found func hfinds
      rw [List.nil_append, tryThunks]
      generalize p.tryThunk linker inst thunk name = r at hattempt hfound ⊢
      obtain ⟨answer, q⟩ := r
      obtain rfl : answer = some func := hfound
      exact ⟨func, thunk, rfl, List.mem_singleton_self thunk, hattempt.finds func rfl⟩
  | cons first earlier ih =>
      have hattempt := attempt_tryThunk linker inst h first name
      rw [List.cons_append, tryThunks]
      generalize p.tryThunk linker inst first name = r at hattempt ⊢
      obtain ⟨answer, q⟩ := r
      cases answer with
      | some func' =>
          exact ⟨func', first, rfl, List.mem_cons_self, hattempt.finds func' rfl⟩
      | none =>
          obtain ⟨func', thunk', hfunc', hmem, hfinds'⟩ :=
            ih hattempt.grows.indexed (hfinds.grows hattempt.grows)
          exact ⟨func', thunk', hfunc', List.mem_cons_of_mem first hmem, hfinds'⟩

/-! ## A conversion -/

/-- The thunks that a conversion tries for a function of this host library. -/
def candidates (db : ThunkDatabase) (hostLibPath : Str) : List Str :=
  match db.findReversed (lookupName hostLibPath) with
  | some entry => entry.thunks
  | none => [hostLibPath]

/-- The loop over the addresses goes through the list that the entry had before it. -/
theorem tryPositions_eq (h : Indexed p.thunkDatabase) (name : Str) {key : Str} {reversed : Nat}
    {entry : ReversedThunk} (hkey : p.thunkDatabase.reversedThunk key = some reversed)
    (hentry : p.thunkDatabase.findReversed key = some entry) (positions : List Nat) :
    p.tryPositions linker inst name reversed positions =
      p.tryThunks linker inst name (positions.map fun i => entry.thunks.getD i []) := by
  induction positions generalizing p with
  | nil => rfl
  | cons i rest ih =>
      have hthunk : p.reversedThunkAt reversed i = entry.thunks.getD i [] := by
        rw [ThunkDatabase.findReversed, hkey, Option.bind_some] at hentry
        obtain ⟨info, hinfo, rfl⟩ := Option.map_eq_some_iff.mp hentry
        rw [reversedThunkAt, hinfo, Option.elim_some]
      have hgrows := (attempt_tryThunk linker inst h (entry.thunks.getD i []) name).grows
      rw [tryPositions, List.map_cons, tryThunks, hthunk]
      generalize p.tryThunk linker inst (entry.thunks.getD i []) name = r at hgrows ⊢
      obtain ⟨answer, q⟩ := r
      cases answer with
      | some func => rfl
      | none =>
          exact ih hgrows.indexed (hgrows.preserved.reversed key reversed hkey).1
            (hgrows.findReversed hentry)

theorem convertHostProcAddress_eq (h : Indexed p.thunkDatabase) (name : Str) {addr : Nat}
    {hostLibPath : Str} (hpath : linker.modulePath addr = some hostLibPath) :
    p.convertHostProcAddress linker inst name addr =
      p.tryThunks linker inst name (candidates p.thunkDatabase hostLibPath) := by
  have hask : p.getThunkInfo inst ⟨some hostLibPath, true⟩ =
      (p.thunkDatabase.reversedThunk (lookupName hostLibPath), p) := rfl
  simp only [convertHostProcAddress, hpath, hask, candidates]
  cases hkey : p.thunkDatabase.reversedThunk (lookupName hostLibPath) with
  | none =>
      have hnone : p.thunkDatabase.findReversed (lookupName hostLibPath) = none := by
        rw [ThunkDatabase.findReversed, hkey, Option.bind_none]
      rw [hnone]
      simp only [tryThunks]
      rcases p.tryThunk linker inst hostLibPath name with ⟨_ | func, q⟩ <;> rfl
  | some reversed =>
      obtain ⟨-, info, hinfo, -⟩ := (Grows.refl h).preserved.reversed _ _ hkey
      have hentry : p.thunkDatabase.findReversed (lookupName hostLibPath) =
          some (p.thunkDatabase.readReversed info) := by
        rw [ThunkDatabase.findReversed, hkey, Option.bind_some, hinfo, Option.map_some]
      simp only [hinfo, Option.elim_some, hentry]
      rw [tryPositions_eq linker inst h name hkey hentry]
      congr 1
      exact List.ext_getElem (by simp) fun i _ hi => by simp [List.getElem?_eq_getElem hi]

theorem grows_convertHostProcAddress (h : Indexed p.thunkDatabase) (name : Str) (addr : Nat) :
    Grows p.thunkDatabase (p.convertHostProcAddress linker inst name addr).2.thunkDatabase := by
  cases hpath : linker.modulePath addr with
  | none =>
      simp only [convertHostProcAddress, hpath]
      exact .refl h
  | some hostLibPath =>
      rw [convertHostProcAddress_eq linker inst h name hpath]
      exact grows_tryThunks linker inst h name _

/-! ## Runs -/

theorem grows_step (h : Indexed p.thunkDatabase) (event : Event) :
    Grows p.thunkDatabase (p.step linker inst event).thunkDatabase := by
  cases event with
  | getThunkInfo r => exact grows_getThunkInfo inst h r
  | dlopen path => exact grows_dlopen linker inst h path
  | convertHostProcAddress name addr => exact grows_convertHostProcAddress linker inst h name addr

theorem grows_run (h : Indexed p.thunkDatabase) (events : List Event) :
    Grows p.thunkDatabase (p.run linker inst events).thunkDatabase := by
  induction events generalizing p with
  | nil => exact .refl h
  | cons event events ih =>
      have hstep := grows_step linker inst h event
      exact hstep.trans (ih hstep.indexed)

omit [DecidableEq Lib] in
theorem indexed_start : Indexed (start inst : Process Lib).thunkDatabase := by
  obtain ⟨hvalid, hfirst⟩ := configure_valid inst
  exact ⟨hvalid, hfirst⟩

/-- The list of an entry is not replaced; a path stays alone as long as there is none. -/
theorem candidates_grows {db db' : ThunkDatabase} (h : Grows db db') {hostLibPath : Str}
    (hnone : db.findReversed (lookupName hostLibPath) = none →
      db'.findReversed (lookupName hostLibPath) = none) :
    candidates db' hostLibPath = candidates db hostLibPath := by
  rw [candidates, candidates]
  cases hentry : db.findReversed (lookupName hostLibPath) with
  | none => rw [hnone hentry]
  | some entry => rw [h.findReversed hentry]

/-- An address that a conversion gives is the function of that name in the library of one of
the candidates. From then on the conversion succeeds, and does not go past this candidate,
unless there was no reversed entry for the host library and a pack has brought one. -/
theorem convertHostProcAddress_again (before between : List Event) (name : Str) (addr func : Nat) :
    let p : Process Lib := (start inst).run linker inst before
    let first := p.convertHostProcAddress linker inst name addr
    let q := first.2.run linker inst between
    let second := q.convertHostProcAddress linker inst name addr
    first.1 = some func →
      ∃ hostLibPath earlier thunk later, linker.modulePath addr = some hostLibPath ∧
        candidates p.thunkDatabase hostLibPath = earlier ++ thunk :: later ∧
        Finds linker first.2.thunkDatabase thunk name func ∧
        ((p.thunkDatabase.findReversed (lookupName hostLibPath) = none →
            q.thunkDatabase.findReversed (lookupName hostLibPath) = none) →
          ∃ func' thunk', second.1 = some func' ∧ thunk' ∈ earlier ++ [thunk] ∧
            Finds linker second.2.thunkDatabase thunk' name func') := by
  intro p first q second hfunc
  have hp : Indexed p.thunkDatabase :=
    (grows_run linker inst (indexed_start inst) before).indexed
  have hfirst : Grows p.thunkDatabase first.2.thunkDatabase :=
    grows_convertHostProcAddress linker inst hp name addr
  have hbetween : Grows first.2.thunkDatabase q.thunkDatabase :=
    grows_run linker inst hfirst.indexed between
  cases hpath : linker.modulePath addr with
  | none =>
      simp only [first, convertHostProcAddress, hpath] at hfunc
      cases hfunc
  | some hostLibPath =>
      have heq := convertHostProcAddress_eq linker inst hp name hpath
      have heq' := convertHostProcAddress_eq linker inst hbetween.indexed name hpath
      obtain ⟨earlier, thunk, later, hsplit, hfinds⟩ :=
        finds_tryThunks linker inst hp ((congrArg Prod.fst heq).symm.trans hfunc)
      rw [← heq] at hfinds
      refine ⟨hostLibPath, earlier, thunk, later, rfl, hsplit, hfinds, fun hnone => ?_⟩
      have hsame := candidates_grows (hfirst.trans hbetween) hnone
      have hfound := found_tryThunks linker inst hbetween.indexed earlier later
        (hfinds.grows hbetween)
      rw [← hsplit, ← hsame, ← heq'] at hfound
      exact hfound

/-- An override that lets functions of `libGL` come from the second of two thunks. -/
def glDocument : Json.Object :=
  [("forwardThunks".toList, .array [.string "gb".toList]),
    ("reversedThunks".toList, .array [.object [("name".toList, .string "libGL".toList),
      ("fileName".toList, .string "libGL.so".toList),
      ("thunks".toList, .array [.string "ga".toList, .string "gb".toList])]])]

def glInstallation : Installation Unit where
  vars name :=
    if name = "GTL_DIR".toList then some "/g".toList
    else if name = "HTL_DIR".toList then some "/h".toList
    else none
  override := some (some (.object glDocument))
  hostArch := "x86_64".toList
  autoDiscover := true
  directory _ := ()
  packJson _ := none

/-- Its library, which asks for itself. -/
def glLinker : Linker Str where
  modulePath _ := some "/lib/libGL.so".toList
  library path := if path = "/g/gb.so".toList then some path else none
  asks _ path := [⟨some path, false⟩]
  symbol _ name := if name = "glFlush".toList then some 7 else none

theorem convertHostProcAddress_again_gl :
    let p : Process Str := start glInstallation
    let first := p.convertHostProcAddress glLinker glInstallation "glFlush".toList 1
    first.1 = some 7 ∧
      ((first.2.dlopen glLinker glInstallation "/g/gb.so".toList).2.convertHostProcAddress
        glLinker glInstallation "glFlush".toList 1).1.isSome := by
  have hfirst : ((start glInstallation : Process Str).convertHostProcAddress glLinker
      glInstallation "glFlush".toList 1).1 = some 7 := rfl
  obtain ⟨hostLibPath, earlier, thunk, later, hpath, -, -, hagain⟩ :=
    convertHostProcAddress_again glLinker glInstallation [] [.dlopen "/g/gb.so".toList]
      "glFlush".toList 1 7 hfirst
  obtain rfl : "/lib/libGL.so".toList = hostLibPath := Option.some.inj hpath
  obtain ⟨func, thunk', hfunc, -⟩ := hagain fun hnone => nomatch hnone
  exact ⟨hfirst, Option.isSome_iff_exists.mpr ⟨func, hfunc⟩⟩

end Process

end Lorelei.GuestRT
