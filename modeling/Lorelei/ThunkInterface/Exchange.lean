import Lorelei.Lib.Memory
import Lorelei.Lib.SortedTable
import Lorelei.TLC.Requested

/-!
# Exchanging the proc tables of a guest and a host thunk

The tables of a thunk library hold one row for each proc of its manifest, in the order
of the `FOREACH` macros, and the generated code finds a proc by its index there.
`LoreExchangeContext` copies the rows of one side over those of the other, position by
position.

The indices of the two sides come from separate compiler runs, each over its own
headers.  A proc that both sides declare has the same index on both sides only if the
procs that one side alone declares come last (`lookups_resolve_iff`).
-/

namespace Lorelei.ThunkInterface

open ByteMemory TLC SortedTable

/-- The two sides of a thunk. -/
inductive Side where
  | guest | host
deriving DecidableEq, Repr

def Side.other : Side → Side
  | .guest => .host
  | .host => .guest

/-- The direction in which a side calls its peer. -/
def Side.calls : Side → ProcDirection
  | .guest => .guestToHost
  | .host => .hostToGuest

/-- The address of `ProcFn<NAME, dir, Entry>::invoke` or `ProcCb<NAME, dir, Entry>::invoke`
in the library of one side. -/
structure EntryAddr where
  side : Side
  kind : ProcKind
  dir : ProcDirection
  key : String
deriving DecidableEq, Repr

/-- `none` is a null address. -/
structure ProcInfoPair where
  key : String
  addr : Option EntryAddr
deriving DecidableEq, Repr

/-- The proc tables of a thunk library and its address boundary. -/
structure StaticThunkContext where
  guestProcs : ProcKind → ProcDirection → List ProcInfoPair
  hostProcs : ProcKind → ProcDirection → List ProcInfoPair
  emuAddr : Word

/-- The rows of this side, which its initializer resolves. -/
def thisEntries (side : Side) (kind : ProcKind) (dir : ProcDirection) (procs : List Proc) :
    List ProcInfoPair :=
  procs.map fun p => ⟨p.key, some ⟨side, kind, dir, p.key⟩⟩

/-- The rows of the peer: names only. -/
def peerEntries (procs : List Proc) : List ProcInfoPair := procs.map fun p => ⟨p.key, none⟩

/-- `LocalThunkContext::preInitialize` on the library of one side. -/
def preInitialize (side : Side) (procs : ProcKind → ProcDirection → List Proc) (emuAddr : Word) :
    StaticThunkContext :=
  let this := fun kind dir => thisEntries side kind dir (procs kind dir)
  let peer := fun kind dir => peerEntries (procs kind dir)
  match side with
  | .guest => { guestProcs := this, hostProcs := peer, emuAddr := emuAddr }
  | .host => { guestProcs := peer, hostProcs := this, emuAddr := emuAddr }

/-- The loop copies as many rows as both arrays have. -/
def copyProcs : (src dest : List ProcInfoPair) → List ProcInfoPair
  | s :: src, _ :: dest => s :: copyProcs src dest
  | _, dest => dest

/-- The guest's context and the host's own, after `LoreExchangeContext` has run on the
host. -/
def loreExchangeContext (guestCtx hostCtx : StaticThunkContext) :
    StaticThunkContext × StaticThunkContext :=
  ({ guestCtx with
      hostProcs := fun kind dir => copyProcs (hostCtx.hostProcs kind dir)
        (guestCtx.hostProcs kind dir)
      emuAddr := hostCtx.emuAddr },
    { hostCtx with
      guestProcs := fun kind dir => copyProcs (guestCtx.guestProcs kind dir)
        (hostCtx.guestProcs kind dir) })

/-- What a copy puts in the slots of the peer. -/
theorem addr_copyProcs (side : Side) (kind : ProcKind) (dir : ProcDirection) (src dest : List Proc)
    (i : Nat) :
    ((copyProcs (thisEntries side kind dir src) (peerEntries dest))[i]?).bind ProcInfoPair.addr =
      if i < dest.length then (src[i]?).map fun p => ⟨side, kind, dir, p.key⟩ else none := by
  induction src generalizing dest i with
  | nil =>
      have hcopy : copyProcs (thisEntries side kind dir []) (peerEntries dest) =
          peerEntries dest := by
        cases dest <;> rfl
      rw [hcopy, peerEntries, List.getElem?_map]
      cases dest[i]? <;> simp
  | cons p src ih =>
      cases dest with
      | nil => simp [copyProcs, thisEntries, peerEntries]
      | cons q dest =>
          cases i with
          | zero => simp [copyProcs, thisEntries, peerEntries]
          | succ i =>
              have hrest := ih dest i
              simp only [thisEntries, peerEntries] at hrest
              simpa [copyProcs, thisEntries, peerEntries] using hrest

/-- Two thunk libraries generated from one stat result. -/
structure Pair where
  stat : ManifestSummary
  headers : Side → Headers
  emuAddr : Side → Word

namespace Pair

/-- The rows of one side. -/
def procs (pair : Pair) (side : Side) : ProcKind → ProcDirection → List Proc :=
  TLC.procs pair.stat (pair.headers side)

/-- The contexts of both sides after they have exchanged their tables. -/
def exchanged (pair : Pair) : StaticThunkContext × StaticThunkContext :=
  loreExchangeContext (preInitialize .guest (pair.procs .guest) (pair.emuAddr .guest))
    (preInitialize .host (pair.procs .host) (pair.emuAddr .host))

/-- The table in which a side finds the entries of its peer. -/
def peerTable (pair : Pair) (side : Side) (kind : ProcKind) : List ProcInfoPair :=
  match side with
  | .guest => pair.exchanged.1.hostProcs kind .guestToHost
  | .host => pair.exchanged.2.guestProcs kind .hostToGuest

/-- `get` of an `Exec` phase: the address in the slot of this index. -/
def get (pair : Pair) (side : Side) (kind : ProcKind) (i : Nat) : Option EntryAddr :=
  ((pair.peerTable side kind)[i]?).bind ProcInfoPair.addr

/-- Whatever a side looks up by its own index is the peer's entry for the same proc, or
is unresolved. -/
def LookupsResolve (pair : Pair) : Prop :=
  ∀ (side : Side) (kind : ProcKind) (i : Nat) (p : Proc),
    (pair.procs side kind side.calls)[i]? = some p →
      pair.get side kind i = none ∨
        pair.get side kind i = some ⟨side.other, kind, side.calls, p.key⟩

/-! ## What a lookup finds -/

variable {pair : Pair} {side : Side} {kind : ProcKind}

theorem peerTable_eq : pair.peerTable side kind =
    copyProcs (thisEntries side.other kind side.calls (pair.procs side.other kind side.calls))
      (peerEntries (pair.procs side kind side.calls)) := by
  cases side <;> rfl

/-- A lookup of a proc finds the entry that the peer has at the same index. -/
theorem get_eq {i : Nat} {p : Proc} (h : (pair.procs side kind side.calls)[i]? = some p) :
    pair.get side kind i = ((pair.procs side.other kind side.calls)[i]?).map fun q =>
      ⟨side.other, kind, side.calls, q.key⟩ := by
  rw [get, peerTable_eq, addr_copyProcs, if_pos]
  exact (List.getElem?_eq_some_iff.mp h).1

/-- The lookups of one side in one table resolve if equal indices stand for equal
names. -/
theorem resolves_iff_agree :
    (∀ (i : Nat) (p : Proc), (pair.procs side kind side.calls)[i]? = some p →
      pair.get side kind i = none ∨
        pair.get side kind i = some ⟨side.other, kind, side.calls, p.key⟩) ↔
      Agree ((pair.procs side kind side.calls).map Proc.name)
        ((pair.procs side.other kind side.calls).map Proc.name) := by
  constructor
  · intro h i x y hx hy
    rw [List.getElem?_map] at hx hy
    obtain ⟨p, hp, rfl⟩ := Option.map_eq_some_iff.mp hx
    obtain ⟨q, hq, rfl⟩ := Option.map_eq_some_iff.mp hy
    have hget := h i p hp
    rw [get_eq hp, hq] at hget
    rcases hget with hnone | hsome
    · cases hnone
    · have hkey : p.key = q.key := (congrArg EntryAddr.key (Option.some.inj hsome)).symm
      exact (key_eq_iff (List.mem_of_getElem? hp) (List.mem_of_getElem? hq)).mp hkey
  · intro h i p hp
    rw [get_eq hp]
    cases hq : (pair.procs side.other kind side.calls)[i]? with
    | none => exact .inl rfl
    | some q =>
        have hname : p.name = q.name := by
          apply h i p.name q.name
          · rw [List.getElem?_map, hp]
            rfl
          · rw [List.getElem?_map, hq]
            rfl
        have hkey := (key_eq_iff (List.mem_of_getElem? hp) (List.mem_of_getElem? hq)).mpr hname
        exact .inr (by rw [hkey]; rfl)

/-- The names of a kind and direction that one side declares. -/
def declared (pair : Pair) (side : Side) (kind : ProcKind) (dir : ProcDirection) : Set String :=
  TLC.declared pair.stat (pair.headers side) kind dir

theorem setOf_mem_names (dir : ProcDirection) :
    {name | name ∈ (pair.procs side kind dir).map Proc.name} = pair.declared side kind dir := by
  ext name
  exact mem_map_name_procs name

theorem aligned_comm {α : Type*} [LT α] {s t : Set α} : Aligned s t ↔ Aligned t s := and_comm

/-- The lookups of one side in one table. -/
theorem table_resolves_iff :
    (∀ (i : Nat) (p : Proc), (pair.procs side kind side.calls)[i]? = some p →
      pair.get side kind i = none ∨
        pair.get side kind i = some ⟨side.other, kind, side.calls, p.key⟩) ↔
      Aligned (pair.declared side kind side.calls) (pair.declared side.other kind side.calls) := by
  have hsorted (side : Side) (dir : ProcDirection) :
      ((pair.procs side kind dir).map Proc.name).Pairwise (· < ·) := pairwise_name_procs
  rw [resolves_iff_agree, agree_iff_aligned (hsorted _ _) (hsorted _ _), setOf_mem_names,
    setOf_mem_names]

/-- Lookups resolve if and only if, in every table, the requested procs that only one
side declares come after everything the other side declares. -/
theorem lookups_resolve_iff (pair : Pair) : pair.LookupsResolve ↔
    ∀ (kind : ProcKind) (dir : ProcDirection),
      Aligned (pair.declared .guest kind dir) (pair.declared .host kind dir) := by
  constructor
  · intro h kind dir
    cases dir with
    | guestToHost => exact table_resolves_iff.mp (h .guest kind)
    | hostToGuest => exact aligned_comm.mp (table_resolves_iff.mp (h .host kind))
  · intro h side kind
    rw [table_resolves_iff]
    cases side with
    | guest => exact h kind .guestToHost
    | host => exact aligned_comm.mp (h kind .hostToGuest)

/-- Two functions, of which the host's headers declare the second only. -/
def missingFirst : Pair where
  stat :=
    { functions := fun
        | .guestToHost => {"open_file", "read_file"}
        | .hostToGuest => ∅
      callbacks := []
      sorted := List.Pairwise.nil
      distinct := List.nodup_nil }
  headers
    | .guest => { functions := {"open_file", "read_file"}, signatures := ∅ }
    | .host => { functions := {"read_file"}, signatures := ∅ }
  emuAddr _ := 0

/-- The guest's index of `open_file` is the host's index of `read_file`. -/
theorem not_lookups_resolve : ¬ ∀ pair : Pair, pair.LookupsResolve := by
  intro h
  have haligned : Aligned (missingFirst.declared .guest .function .guestToHost)
      (missingFirst.declared .host .function .guestToHost) :=
    table_resolves_iff.mp (h missingFirst .guest .function)
  have hguest : "open_file" ∈ missingFirst.declared .guest .function .guestToHost := by
    simp [declared, TLC.declared, missingFirst]
  have hhost : "open_file" ∉ missingFirst.declared .host .function .guestToHost := by
    simp [declared, TLC.declared, missingFirst]
  have hread : "read_file" ∈ missingFirst.declared .host .function .guestToHost := by
    simp [declared, TLC.declared, missingFirst]
  exact absurd (haligned.1 _ hguest hhost _ hread) (by decide)

end Pair

end Lorelei.ThunkInterface
