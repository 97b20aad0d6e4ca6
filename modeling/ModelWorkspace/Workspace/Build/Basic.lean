import ModelWorkspace.Workspace.Basic

/-!
# Builds

A build is an update while it runs: the workspace as far as it has been changed, the
report so far, the files whose elements are gone or replaced, and whether packages
have changed.

This module removes files.  The other stages are in `ModelWorkspace.Workspace.Build`.
-/

namespace ModelWorkspace

/-- An update while it runs. -/
structure Build where
  workspace : Workspace
  report : BuildReport := {}
  touched : LocationSet := LocationMap.empty
  packagesChanged : Bool := false
deriving Inhabited

namespace Build

/-- Removes a file with its elements and its buffer. -/
def removeUnit (b : Build) (l : Location) : Build :=
  let ws := b.workspace
  { b with
    workspace :=
      { ws with
        units := ws.units.erase l
        index := ws.index.withoutLocation l
        buffers := ws.buffers.erase l
        pending := ws.pending.erase l }
    report :=
      if ws.units.contains l then { b.report with deleted := b.report.deleted ++ [l] }
      else b.report
    touched := b.touched.add l }

/-- Replaces the packages. -/
def setPackages (b : Build) (packages : PackageGraph) : Build :=
  { b with
    workspace := { b.workspace with packages := packages }
    packagesChanged := true }

/-- Whether a file is a manifest: as it was tracked, or by its name if it was not. -/
def wasManifest (b : Build) (l : Location) : Bool :=
  match b.workspace.units.get? l with
  | some u => u.isManifest
  | none => b.workspace.config.isManifest l

/-- Removes a file, with the package that it declares. -/
def deleteFile (b : Build) (l : Location) : Build :=
  let packages := b.workspace.packages
  let declares := b.wasManifest l && (packages.byManifest? l).any (·.manifest == l)
  let b := b.removeUnit l
  if declares then b.setPackages (packages.removeManifest l) else b

/-- Removes everything below a directory. -/
def deleteDirectory (b : Build) (l : Location) : Build :=
  let packages := b.workspace.packages
  let b := (b.workspace.units.locationsWithin l).foldl removeUnit b
  if (packages.within l).isEmpty then b else b.setPackages (packages.removeWithin l)

/-- Removes what is no longer at a location: a file if the location has an extension,
otherwise a directory. -/
def delete (b : Build) (l : Location) : Build :=
  if l.extension.isSome then b.deleteFile l else b.deleteDirectory l

end Build

end ModelWorkspace
