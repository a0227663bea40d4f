import Lorelei.DLCall.PackEntries
import Lorelei.HostRT.ThunkPath

/-!
# Thunk discovery

`HostServer::getThunkInfo`: a lookup of a guest thunk that misses loads the JSON of the
pack that the thunk lies in, once for each prefix, and looks again.  Reversed entries
come with it.

The override and the packs that are installed do not change during a run.  A prefix leads
to a directory, and the JSON of a pack is that of the directory.
-/

namespace Lorelei.HostRT

open Support DLCall

/-- What `configureThunkDiscovery` is given, and the packs on disk. -/
structure Installation (Dir : Type) where
  vars : Vars
  /-- The override document, if a path is configured; it may be unreadable. -/
  override : Option (Option Json)
  hostArch : Str
  autoDiscover : Bool
  /-- The directory that a prefix leads to. -/
  directory : Str → Dir
  /-- `share/lorelei/ThunkDB.json` in a directory, if it exists; it may be unreadable. -/
  packJson : Dir → Option (Option Json)

/-- A prefix that has been entered in `m_loadedPackPrefixes`, with the directory of the
guest thunk that led to it. -/
structure Visit where
  prefixPath : Str
  guestThunkDir : Str

structure HostServer where
  thunkDatabase : ThunkDatabase
  /-- In order; `m_loadedPackPrefixes` holds the normal forms of their prefixes. -/
  visits : List Visit

variable {Dir : Type}

/-- `m_loadedPackPrefixes`. -/
def HostServer.loadedPackPrefixes (s : HostServer) : List Str :=
  s.visits.map fun v => lexicallyNormal v.prefixPath

/-- `prefix / "lib" / (hostArch + "-LoreHTL")`. -/
def hostThunkDir (hostArch prefixPath : Str) : Str :=
  joinPath (joinPath prefixPath "lib".toList) (hostArch ++ "-LoreHTL".toList)

/-- `configureThunkDiscovery`. -/
def configureThunkDiscovery (inst : Installation Dir) : HostServer where
  thunkDatabase :=
    match inst.override with
    | none => ThunkDatabase.empty
    | some json => (ThunkDatabase.empty.load json inst.vars).2
  visits := []

/-- The directory of a guest thunk. -/
def gtlDir (guestThunkPath : Str) : Str := parentPath guestThunkPath

/-- The prefix of the pack that a guest thunk lies in, if its directory has the name that
packs give it. -/
def packPrefix (guestThunkPath : Str) : Option Str :=
  if filename (gtlDir guestThunkPath) ≠ "x86_64-LoreGTL".toList then none
  else
    let prefixPath := parentPath (parentPath (parentPath (gtlDir guestThunkPath)))
    if prefixPath = [] then none else some prefixPath

/-- What `loadPack` is given for a visit. -/
def packOf (inst : Installation Dir) (v : Visit) : ThunkDatabase.Pack where
  json := (inst.packJson (inst.directory v.prefixPath)).getD none
  guestThunkDir := v.guestThunkDir
  hostThunkDir := hostThunkDir inst.hostArch v.prefixPath
  vars := inst.vars

/-- Enters a prefix, and loads the JSON of the pack if there is one. -/
def HostServer.visit (inst : Installation Dir) (s : HostServer) (v : Visit) : HostServer where
  thunkDatabase :=
    if (inst.packJson (inst.directory v.prefixPath)).isSome then
      (s.thunkDatabase.loadPack (packOf inst v)).2
    else s.thunkDatabase
  visits := s.visits ++ [v]

/-- `resolveForwardThunk`; a null path is empty. -/
def HostServer.resolveForwardThunk (inst : Installation Dir) (s : HostServer)
    (guestThunkPath name : Str) : Option Nat × HostServer :=
  match s.thunkDatabase.forwardThunk name with
  | some entry => (some entry, s)
  | none =>
      if !inst.autoDiscover || guestThunkPath = [] then (none, s)
      else
        match packPrefix guestThunkPath with
        | none => (none, s)
        | some prefixPath =>
            if lexicallyNormal prefixPath ∈ s.loadedPackPrefixes then (none, s)
            else
              let s := s.visit inst ⟨prefixPath, gtlDir guestThunkPath⟩
              (s.thunkDatabase.forwardThunk name, s)

/-- A call of `getThunkInfo`. -/
structure Request where
  path : Option Str
  isReverse : Bool

/-- The C string that is passed. -/
def Request.text (r : Request) : Str := cString (r.path.getD [])

/-- `getThunkInfo`: the address of an entry, and the server afterwards. -/
def HostServer.getThunkInfo (inst : Installation Dir) (s : HostServer) (r : Request) :
    Option Nat × HostServer :=
  let name := thunkNameOf r.text
  if r.isReverse then (s.thunkDatabase.reversedThunk name, s)
  else s.resolveForwardThunk inst r.text name

/-- The server after these requests. -/
def HostServer.run (inst : Installation Dir) (s : HostServer) (requests : List Request) :
    HostServer :=
  requests.foldl (fun s r => (s.getThunkInfo inst r).2) s

end Lorelei.HostRT
