import ModelWorkspace.Workspace.Build.Links
import ModelWorkspace.Workspace.Build.Manifests
import ModelWorkspace.Workspace.Build.Models

/-!
# Updates

An update takes the locations of files and directories that have changed or gone,
and brings the workspace up to date with the disk and the buffers:

* what was deleted is removed;
* manifests are loaded, and with them the packages;
* model files are loaded, indexed, linked and validated;
* the diagnostics of manifests are found again.

Opening, changing and closing a buffer is an update of its file.
-/

namespace ModelWorkspace
namespace Workspace

/-- The tracked files that a changed location leads to: a directory stands for what is
below it. -/
def filesAt (ws : Workspace) (disk : Disk) (l : Location) : Attempt (List Location) := do
  let l ← disk.resolve l
  if ← disk.isDirectory l then ws.scan disk l
  else return if ws.config.isTracked l then [l] else []

/-- The tracked files that changed locations lead to. -/
def changedFiles (ws : Workspace) (disk : Disk) (changed : List Location) :
    Attempt (List Location) := do
  return (← changed.mapM (ws.filesAt disk)).flatten

/-- The build behind the removal of what was deleted. -/
def beginBuild (ws : Workspace) (disk : Disk) (deleted : List Location) : Attempt Build :=
  deleted.foldlM (fun b l => (disk.resolve l).map b.delete) { workspace := ws }

/-- Takes the files whose parse was called off before. -/
def takePending (b : Build) : LocationSet × Build :=
  (b.workspace.pending,
    { b with workspace := { b.workspace with pending := LocationMap.empty } })

/-- The stages behind the manifests, given the model files that are to be loaded. -/
def finishBuild (disk : Disk) (b : Build) (models : LocationSet) : Attempt Build := do
  let b ← Attempt.ofSteps (if b.packagesChanged then b.resetForPackages else .ok b)
  let b ← b.loadModels disk models
  let b ← Attempt.ofSteps b.indexReady
  let b ← Attempt.ofSteps b.relink
  return if b.packagesChanged ∨ b.report.parsed ≠ [] then b.refreshManifests else b

/-- The build behind all of its stages. -/
def runBuild (disk : Disk) (b : Build) (changed : List Location) : Attempt Build := do
  let (pending, b) := takePending b
  let files := pending.addAll (← b.workspace.changedFiles disk changed)
  let config := b.workspace.config
  let manifests := files.toList.filter config.isManifest
  let models := files.filter fun l _ => !config.isManifest l
  let (b, models) ← b.loadManifests disk models (ManifestQueue.ofDisk config disk manifests)
  finishBuild disk b models

/-- Brings the workspace up to date. -/
def update (ws : Workspace) (disk : Disk) (changed deleted : List Location) :
    Attempt (BuildReport × Workspace) := do
  let b ← runBuild disk (← ws.beginBuild disk deleted) changed
  return (b.report, b.workspace)

/-- Opens a file in an editor. -/
def openBuffer (ws : Workspace) (disk : Disk) (l : Location) (text : String) :
    Attempt (BuildReport × Workspace) := do
  let l ← disk.resolve l
  update { ws with buffers := Buffers.openFile ws.buffers l text } disk [l] []

/-- Changes the text of a file that is open; of one that is not, nothing. -/
def changeBuffer (ws : Workspace) (disk : Disk) (l : Location) (text : String) :
    Attempt (BuildReport × Workspace) := do
  let l ← disk.resolve l
  match Buffers.change ws.buffers l text with
  | (true, buffers) => update { ws with buffers := buffers } disk [l] []
  | (false, _) => return ({}, ws)

/-- Closes a file; its text is again the one on the disk. -/
def closeBuffer (ws : Workspace) (disk : Disk) (l : Location) :
    Attempt (BuildReport × Workspace) := do
  let l ← disk.resolve l
  match Buffers.close ws.buffers l with
  | (true, buffers) => update { ws with buffers := buffers } disk [l] []
  | (false, _) => return ({}, ws)

end Workspace
end ModelWorkspace
