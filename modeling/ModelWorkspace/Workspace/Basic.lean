import ModelWorkspace.Workspace.Cancellation
import ModelWorkspace.Workspace.Config
import ModelWorkspace.Workspace.Disk
import ModelWorkspace.Workspace.Store

/-!
# Workspaces

A workspace holds the tracked files in memory, the index of their elements and the
graph of their packages.  It reads files from a disk that is not part of it: what
changed there has to be reported to it.
-/

namespace ModelWorkspace

/-- What one update did, by stage. -/
structure BuildReport where
  parsed : List Location := []
  indexed : List Location := []
  linked : List Location := []
  validated : List Location := []
  deleted : List Location := []
  /-- Files whose parse was called off; the next update parses them again. -/
  cancelled : List Location := []
deriving DecidableEq, Repr, Inhabited

namespace BuildReport

/-- Whether nothing was done. -/
def isEmpty (report : BuildReport) : Bool :=
  report.parsed.isEmpty && report.indexed.isEmpty && report.linked.isEmpty &&
    report.validated.isEmpty && report.deleted.isEmpty && report.cancelled.isEmpty

end BuildReport

/-- What there is to load of a file. -/
inductive Loaded where
  | text (text : String)
  | missing
  /-- The file is there, but its text cannot be read now. -/
  | unreadable
deriving DecidableEq, Repr

/-- What the answer of a disk leaves to be loaded. -/
def Loaded.ofAnswer : Except DiskError String → Loaded
  | .ok source => .text source
  | .error (.missing _) => .missing
  | .error (.unreadable _ _) => .unreadable

/-- A workspace between two updates. -/
structure Workspace where
  config : WorkspaceConfig
  units : UnitStore
  index : Index
  packages : PackageGraph
  buffers : Buffers
  /-- The files whose next parse is to be called off. -/
  cancelRequests : LocationSet
  /-- The files whose last parse was called off. -/
  pending : LocationSet
deriving Inhabited

namespace Workspace

/-- The workspace without files. -/
def ofConfig (config : WorkspaceConfig) : Workspace :=
  { config := config, units := LocationMap.empty, index := Index.empty
    packages := PackageGraph.empty, buffers := LocationMap.empty
    cancelRequests := LocationMap.empty, pending := LocationMap.empty }

/-- What references are resolved in. -/
def linker (ws : Workspace) : Linker :=
  ⟨ws.index, ws.packages, ws.config.dependencyScope⟩

/-- What there is to load of a file: the text of its buffer if it is open, otherwise what is
on the disk. -/
def read (ws : Workspace) (disk : Disk) (l : Location) : Attempt Loaded :=
  match ws.buffers.get? l with
  | some text => .ok (.text text)
  | none => (disk.read l).map Loaded.ofAnswer

/-- Of some files those that are tracked, in order. -/
def trackedAmong (ws : Workspace) (files : List Location) : List Location :=
  (LocationSet.ofList (files.filter ws.config.isTracked)).toList

/-- The tracked files that a directory leads to, in order. -/
def scan (ws : Workspace) (disk : Disk) (directory : Location) : Attempt (List Location) := do
  return ws.trackedAmong (← (← disk.walk directory).mapM disk.resolve)

/-- The registry of parses.  None runs between two updates. -/
def registry (ws : Workspace) : CancelRegistry :=
  CancelRegistry.idle ws.cancelRequests

/-- Asks for the parse of a file to be called off; the flag tells whether it was running. -/
def cancel (ws : Workspace) (l : Location) : Bool × Workspace :=
  let (running, registry) := ws.registry.cancel l
  (running, { ws with cancelRequests := registry.requested })

/-- Calls off all parses that run. -/
def cancelAll (ws : Workspace) : Workspace :=
  { ws with cancelRequests := ws.registry.cancelAll.requested }

/-- Asks for the next parse of a file to be called off. -/
def cancelNext (ws : Workspace) (l : Location) : Workspace :=
  (ws.cancel l).2

end Workspace

end ModelWorkspace
