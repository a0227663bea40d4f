import Lorelei.DLCall.PackOrder
import Lorelei.HostRT.Discovered

/-!
# The order of discovery

Which packs are loaded, and in which order, is left to the guest thunks that a program happens
to load. Where the packs are separate and a thunk is found in no pack but its own, neither the
order of the requests nor how often they are made changes what any later lookup finds
(`lookups_of_same_requests`).
-/

namespace Lorelei.HostRT

open Support DLCall ThunkDatabase

variable {Dir : Type} {inst : Installation Dir} {s : HostServer} {r : Request} {v : Visit}
  {requests requests' : List Request}

/-- The pack that a request is about. -/
def visitOf (r : Request) : Option Visit :=
  if r.isReverse then none
  else (packPrefix r.text).map fun prefixPath => ⟨prefixPath, gtlDir r.text⟩

/-- Packs of different prefixes have nothing in common, a prefix is spelled in one way, and the
name of a guest thunk is in no pack but its own. -/
structure Separate (inst : Installation Dir) (requests : List Request) : Prop where
  oneSpelling : ∀ r ∈ requests, ∀ r' ∈ requests, ∀ v ∈ visitOf r, ∀ v' ∈ visitOf r',
    lexicallyNormal v.prefixPath = lexicallyNormal v'.prefixPath → v = v'
  apart : ∀ r ∈ requests, ∀ r' ∈ requests, ∀ v ∈ visitOf r, ∀ v' ∈ visitOf r',
    lexicallyNormal v.prefixPath ≠ lexicallyNormal v'.prefixPath →
    (packOf inst v).Apart (packOf inst v')
  own : ∀ r ∈ requests, ∀ r' ∈ requests, ∀ v ∈ visitOf r, ∀ v' ∈ visitOf r',
    lexicallyNormal v.prefixPath ≠ lexicallyNormal v'.prefixPath →
    ∀ entry ∈ (packOf inst v').forwardContent, thunkNameOf r.text ∉ entry.names

theorem Separate.mono (h : Separate inst requests) (hsub : requests' ⊆ requests) :
    Separate inst requests' where
  oneSpelling r hr r' hr' := h.oneSpelling r (hsub hr) r' (hsub hr')
  apart r hr r' hr' := h.apart r (hsub hr) r' (hsub hr')
  own r hr r' hr' := h.own r (hsub hr) r' (hsub hr')

/-! ## One request -/

/-- A thunk is looked up in vain, and the pack it lies in has not been entered. -/
structure Enters (inst : Installation Dir) (s : HostServer) (r : Request) (v : Visit) : Prop where
  autoDiscover : inst.autoDiscover = true
  visitOf : visitOf r = some v
  missing : s.thunkDatabase.forwardThunk (thunkNameOf r.text) = none
  new : lexicallyNormal v.prefixPath ∉ s.loadedPackPrefixes

theorem visitOf_eq_some_iff : visitOf r = some v ↔ r.isReverse = false ∧
    packPrefix r.text = some v.prefixPath ∧ gtlDir r.text = v.guestThunkDir := by
  rw [visitOf]
  cases r.isReverse with
  | true => simp
  | false =>
      rw [if_neg Bool.false_ne_true, Option.map_eq_some_iff]
      constructor
      · rintro ⟨prefixPath, hpack, rfl⟩
        exact ⟨rfl, hpack, rfl⟩
      · rintro ⟨-, hpack, hdir⟩
        exact ⟨v.prefixPath, hpack, by rw [hdir]⟩

theorem Enters.getThunkInfo (h : Enters inst s r v) :
    (s.getThunkInfo inst r).2 = s.visit inst v := by
  obtain ⟨hreverse, hpack, hdir⟩ := visitOf_eq_some_iff.mp h.visitOf
  have htext : r.text ≠ [] := by
    rintro htext
    rw [htext] at hpack
    cases hpack
  simp only [HostServer.getThunkInfo, hreverse, Bool.false_eq_true, if_false,
    HostServer.resolveForwardThunk, h.missing, h.autoDiscover, hpack, htext, h.new, hdir]
  rfl

theorem getThunkInfo_of_not_enters (h : ∀ v, ¬ Enters inst s r v) :
    (s.getThunkInfo inst r).2 = s := by
  cases hauto : inst.autoDiscover with
  | true =>
      rcases getThunkInfo_cases inst s r with hsame | ⟨p, hreverse, hmissing, hpack, hnew, -⟩
      · exact hsame
      · have hvisit : visitOf r = some ⟨p, gtlDir r.text⟩ :=
          visitOf_eq_some_iff.mpr ⟨hreverse, hpack, rfl⟩
        exact absurd ⟨hauto, hvisit, hmissing, hnew⟩ (h _)
  | false =>
      rw [HostServer.getThunkInfo, HostServer.resolveForwardThunk]
      split
      · rfl
      · split
        · rfl
        · rw [hauto]
          rfl

/-! ## Runs -/

/-- The database is the override with the loaded packs under it, and no prefix is entered
twice. -/
structure Entered (inst : Installation Dir) (s : HostServer) : Prop where
  database : s.thunkDatabase =
    (configureThunkDiscovery inst).thunkDatabase.loadPacks ((s.loads inst).map (packOf inst))
  once : s.loadedPackPrefixes.Nodup

theorem Entered.visit (h : Entered inst s)
    (hnew : lexicallyNormal v.prefixPath ∉ s.loadedPackPrefixes) :
    Entered inst (s.visit inst v) where
  database := by
    rw [loads_visit, HostServer.visit]
    dsimp only
    split
    · rw [List.map_append, List.map_singleton, loadPacks_concat, ← h.database]
    · rw [List.append_nil, h.database]
  once := by
    rw [HostServer.loadedPackPrefixes, HostServer.visit, List.map_append, List.map_singleton]
    refine List.nodup_append.mpr ⟨h.once, List.nodup_singleton _, ?_⟩
    rintro normal hmem _ hv rfl
    rw [List.mem_singleton.mp hv] at hmem
    exact hnew hmem

theorem Entered.getThunkInfo (h : Entered inst s) (r : Request) :
    Entered inst (s.getThunkInfo inst r).2 := by
  by_cases henters : ∃ v, Enters inst s r v
  · obtain ⟨v, hv⟩ := henters
    rw [hv.getThunkInfo]
    exact h.visit hv.new
  · rw [getThunkInfo_of_not_enters (not_exists.mp henters)]
    exact h

theorem entered_run (inst : Installation Dir) (requests : List Request) :
    Entered inst ((configureThunkDiscovery inst).run inst requests) := by
  induction requests using List.reverseRecOn with
  | nil => exact ⟨rfl, List.nodup_nil⟩
  | append_singleton requests r ih =>
      rw [run_concat]
      exact ih.getThunkInfo r

theorem stacked_configure (inst : Installation Dir) :
    ∃ items entries, (configureThunkDiscovery inst).thunkDatabase.Stacked items entries := by
  rw [configureThunkDiscovery]
  cases inst.override with
  | none => exact ⟨_, _, stacked_empty⟩
  | some json => exact ⟨_, _, stacked_load .empty json inst.vars⟩

/-- A request for a guest thunk of a pack that the override does not know. -/
structure Asks (inst : Installation Dir) (r : Request) (v : Visit) : Prop where
  autoDiscover : inst.autoDiscover = true
  visitOf : visitOf r = some v
  missing : (configureThunkDiscovery inst).thunkDatabase.forwardThunk (thunkNameOf r.text) = none

theorem Enters.asks (hentered : Entered inst s) (h : Enters inst s r v) : Asks inst r v := by
  obtain ⟨items, entries, hstacked⟩ := stacked_configure inst
  have hmissing := h.missing
  rw [hentered.database] at hmissing
  exact ⟨h.autoDiscover, h.visitOf, forwardThunk_of_loadPacks hstacked hmissing⟩

/-- A pack that is asked for is entered, unless it has been. -/
theorem Asks.enters (hseparate : Separate inst requests) (hentered : Entered inst s)
    (hasked : ∀ u ∈ s.visits, ∃ r ∈ requests, Asks inst r u) (hr : r ∈ requests)
    (h : Asks inst r v) (hv : v ∉ s.visits) : Enters inst s r v := by
  obtain ⟨items, entries, hstacked⟩ := stacked_configure inst
  have hother : ∀ u ∈ s.visits, lexicallyNormal v.prefixPath ≠ lexicallyNormal u.prefixPath := by
    intro u hu hnormal
    obtain ⟨r', hr', hasks'⟩ := hasked u hu
    have heq := hseparate.oneSpelling r hr r' hr' v h.visitOf u hasks'.visitOf hnormal
    exact hv (heq ▸ hu)
  refine ⟨h.autoDiscover, h.visitOf, ?_, ?_⟩
  · by_contra hfound
    rw [hentered.database] at hfound
    obtain ⟨pack, hpack, entry, hentry, hk⟩ := exists_of_loadPacks hstacked h.missing hfound
    obtain ⟨u, hu, rfl⟩ := List.mem_map.mp hpack
    have hu : u ∈ s.visits := List.mem_of_mem_filter hu
    obtain ⟨r', hr', hasks'⟩ := hasked u hu
    exact hseparate.own r hr r' hr' v h.visitOf u hasks'.visitOf (hother u hu) entry hentry hk
  · rw [mem_loadedPackPrefixes]
    rintro ⟨u, hu, hnormal⟩
    exact hother u hu hnormal.symm

/-- The packs that have been entered are those that have been asked for. -/
theorem mem_visits_run (h : Separate inst requests) (v : Visit) :
    v ∈ ((configureThunkDiscovery inst).run inst requests).visits ↔
      ∃ r ∈ requests, Asks inst r v := by
  induction requests using List.reverseRecOn generalizing v with
  | nil => exact ⟨nofun, fun ⟨r, hr, _⟩ => absurd hr List.not_mem_nil⟩
  | append_singleton requests r ih =>
      have hsub := List.subset_append_left requests [r]
      have hmem : r ∈ requests ++ [r] := List.mem_append_right requests List.mem_cons_self
      have hentered := entered_run inst requests
      replace ih := ih (h.mono hsub)
      rw [run_concat]
      generalize (configureThunkDiscovery inst).run inst requests = s at ih hentered ⊢
      have hasked : ∀ u ∈ s.visits, ∃ r' ∈ requests ++ [r], Asks inst r' u := by
        intro u hu
        obtain ⟨r', hr', hasks⟩ := (ih u).mp hu
        exact ⟨r', hsub hr', hasks⟩
      constructor
      · intro hv
        by_cases henters : ∃ u, Enters inst s r u
        · obtain ⟨u, hu⟩ := henters
          rw [hu.getThunkInfo] at hv
          rcases List.mem_append.mp hv with hv | hv
          · exact hasked v hv
          · rw [List.mem_singleton.mp hv]
            exact ⟨r, hmem, hu.asks hentered⟩
        · rw [getThunkInfo_of_not_enters (not_exists.mp henters)] at hv
          exact hasked v hv
      · rintro ⟨r', hr', hasks⟩
        by_cases hv : v ∈ s.visits
        · exact (visits_getThunkInfo inst s r).subset hv
        rcases List.mem_append.mp hr' with hr' | hr'
        · exact absurd ((ih v).mpr ⟨r', hr', hasks⟩) hv
        obtain rfl := List.mem_singleton.mp hr'
        rw [(hasks.enters h hentered hasked hmem hv).getThunkInfo]
        exact List.mem_append_right s.visits List.mem_cons_self

theorem nodup_visits (h : Entered inst s) : s.visits.Nodup := h.once.of_map _

theorem pairwise_loads (h : Separate inst requests) :
    (((configureThunkDiscovery inst).run inst requests).loads inst |>.map (packOf inst)).Pairwise
      Pack.Apart := by
  have honce := (entered_run inst requests).once
  rw [HostServer.loadedPackPrefixes, List.Nodup, List.pairwise_map] at honce
  refine List.pairwise_map.mpr ((honce.filter _).imp_of_mem fun {u v} hu hv hne => ?_)
  obtain ⟨r, hr, hasks⟩ := (mem_visits_run h _).mp (List.mem_of_mem_filter hu)
  obtain ⟨r', hr', hasks'⟩ := (mem_visits_run h _).mp (List.mem_of_mem_filter hv)
  exact h.apart r hr r' hr' u hasks.visitOf v hasks'.visitOf hne

/-- Two runs of the same requests, in any order and made any number of times, leave databases
in which every lookup finds the same. -/
theorem lookups_of_same_requests (h : Separate inst requests)
    (hsame : ∀ r, r ∈ requests ↔ r ∈ requests') :
    let db := ((configureThunkDiscovery inst).run inst requests).thunkDatabase
    let db' := ((configureThunkDiscovery inst).run inst requests').thunkDatabase
    db.findForward = db'.findForward ∧ db.findReversed = db'.findReversed := by
  intro db db'
  have h' : Separate inst requests' := h.mono fun r hr => (hsame r).mpr hr
  have hentered := entered_run inst requests
  have hentered' := entered_run inst requests'
  have hdb : db = _ := hentered.database
  have hdb' : db' = _ := hentered'.database
  have hvisits : ((configureThunkDiscovery inst).run inst requests).visits.Perm
      ((configureThunkDiscovery inst).run inst requests').visits := by
    rw [List.perm_ext_iff_of_nodup (nodup_visits hentered) (nodup_visits hentered')]
    intro v
    rw [mem_visits_run h, mem_visits_run h']
    simp only [hsame]
  obtain ⟨items, entries, hstacked⟩ := stacked_configure inst
  rw [hdb, hdb']
  exact loadPacks_perm hstacked ((hvisits.filter _).map _) (pairwise_loads h)

/-! ## Two packs -/

/-- A pack with one forward and one reversed thunk. -/
def smallPack (forward reversed : String) : Json :=
  .object [("forwardThunks".toList, .array [.string forward.toList]),
    ("reversedThunks".toList, .array [.object [("name".toList, .string reversed.toList),
      ("fileName".toList, .string "x.so".toList)]])]

def twoPacks : Installation Str where
  vars _ := none
  override := none
  hostArch := "riscv64".toList
  autoDiscover := true
  directory p := p
  packJson dir :=
    if dir = "/p".toList then some (some (smallPack "foo" "u"))
    else if dir = "/q".toList then some (some (smallPack "bar" "w"))
    else none

def fooInP : Request := ⟨some "/p/x86_64/lib/x86_64-LoreGTL/foo.so".toList, false⟩

def barInQ : Request := ⟨some "/q/x86_64/lib/x86_64-LoreGTL/bar.so".toList, false⟩

def visitP : Visit := ⟨"/p".toList, "/p/x86_64/lib/x86_64-LoreGTL".toList⟩

def visitQ : Visit := ⟨"/q".toList, "/q/x86_64/lib/x86_64-LoreGTL".toList⟩

theorem visitOf_twoPacks (hr : r ∈ [fooInP, barInQ]) (hv : v ∈ visitOf r) :
    r = fooInP ∧ v = visitP ∨ r = barInQ ∧ v = visitQ := by
  have hfoo : visitOf fooInP = some visitP := rfl
  have hbar : visitOf barInQ = some visitQ := rfl
  rcases List.mem_pair.mp hr with rfl | rfl
  · rw [hfoo] at hv
    exact .inl ⟨rfl, (Option.some.inj hv).symm⟩
  · rw [hbar] at hv
    exact .inr ⟨rfl, (Option.some.inj hv).symm⟩

theorem apart_twoPacks : (packOf twoPacks visitP).Apart (packOf twoPacks visitQ) where
  forward := by
    unfold Contributions.KeysApart
    decide
  reversed := by
    unfold Contributions.KeysApart
    decide

theorem separate_twoPacks : Separate twoPacks [fooInP, barInQ] where
  oneSpelling r hr r' hr' v hv v' hv' hnormal := by
    rcases visitOf_twoPacks hr hv with ⟨-, rfl⟩ | ⟨-, rfl⟩ <;>
      rcases visitOf_twoPacks hr' hv' with ⟨-, rfl⟩ | ⟨-, rfl⟩
    · rfl
    · exact absurd hnormal (by decide)
    · exact absurd hnormal (by decide)
    · rfl
  apart r hr r' hr' v hv v' hv' hne := by
    rcases visitOf_twoPacks hr hv with ⟨-, rfl⟩ | ⟨-, rfl⟩ <;>
      rcases visitOf_twoPacks hr' hv' with ⟨-, rfl⟩ | ⟨-, rfl⟩
    · exact absurd rfl hne
    · exact apart_twoPacks
    · exact apart_twoPacks.symm
    · exact absurd rfl hne
  own r hr r' hr' v hv v' hv' hne := by
    rcases visitOf_twoPacks hr hv with ⟨rfl, rfl⟩ | ⟨rfl, rfl⟩ <;>
      rcases visitOf_twoPacks hr' hv' with ⟨-, rfl⟩ | ⟨-, rfl⟩
    · exact absurd rfl hne
    · decide
    · decide
    · exact absurd rfl hne

/-- The pack in `/q` can come first, and its thunk can be looked up again. -/
theorem lookups_of_same_requests_twoPacks :
    let db := ((configureThunkDiscovery twoPacks).run twoPacks [fooInP, barInQ]).thunkDatabase
    let db' :=
      ((configureThunkDiscovery twoPacks).run twoPacks [barInQ, fooInP, barInQ]).thunkDatabase
    db.findForward = db'.findForward ∧ db.findReversed = db'.findReversed := by
  refine lookups_of_same_requests separate_twoPacks fun r => ?_
  have hcons : r ∈ [barInQ, fooInP, barInQ] ↔ r = barInQ ∨ r ∈ [fooInP, barInQ] :=
    List.mem_cons
  rw [hcons]
  constructor
  · exact .inr
  · rintro (rfl | hr)
    · exact List.mem_cons_of_mem fooInP List.mem_cons_self
    · exact hr

end Lorelei.HostRT
