import ModelWorkspace.Index.Insert
import ModelWorkspace.Workspace.Build.Basic

/-!
# Loading and indexing model files

A model file is tracked while a package owns it.  When packages change, files that
no package owns any more are removed, and all others have to be indexed again,
because the identifiers of their elements depend on the packages.

Files are indexed in the order of their locations, after the elements of all of
them have been taken out of the index.
-/

namespace ModelWorkspace
namespace Build

/-- Removes the model files that no package owns. -/
def dropOrphans (b : Build) : Build :=
  let ws := b.workspace
  let orphans := ws.units.models.filter fun u => (ws.packages.packageFor? u.location).isNone
  (orphans.map (·.location)).foldl removeUnit b

/-- A model file as it is before it is indexed. -/
def backToParsed (u : SourceUnit) : Except LifecycleError SourceUnit :=
  if u.isModel ∧ LifecycleState.parsed < u.state then u.unlink.2.resetTo .parsed else .ok u

/-- Follows a change of packages: no file stays indexed. -/
def resetForPackages (b : Build) : Except LifecycleError Build := do
  let b := b.dropOrphans
  let units ← b.workspace.units.updateAll backToParsed
  return { b with workspace := { b.workspace with units := units } }

/-- Begins the parse of a file, and ends it; the flag tells whether it was to be called
off. -/
def beginParse (b : Build) (l : Location) : Bool × Build :=
  let (cancelled, registry) := b.workspace.registry.start l
  let requests := (registry.finish l).requested
  (cancelled, { b with workspace := { b.workspace with cancelRequests := requests } })

/-- Puts a parsed model file in place of what was tracked before. -/
def storeModel (b : Build) (l : Location) (text : String) (document : Document) : Build :=
  let ws := b.workspace
  { b with
    workspace :=
      { ws with
        units := ws.units.put (SourceUnit.ofDocument l text document)
        index := ws.index.withoutLocation l }
    report := { b.report with parsed := b.report.parsed ++ [l] }
    touched := b.touched.add l }

/-- Leaves a file as it is tracked and remembers that its parse was called off. -/
def postpone (b : Build) (l : Location) : Build :=
  { b with
    workspace := { b.workspace with pending := b.workspace.pending.add l }
    report := { b.report with cancelled := b.report.cancelled ++ [l] } }

/-- Follows what there is to load of a model file: it is removed if it is not there, and
left as it is if it cannot be read. -/
def takeModel (b : Build) (l : Location) : Loaded → Build
  | .missing => b.removeUnit l
  | .unreadable => b
  | .text text =>
    let (cancelled, b) := b.beginParse l
    match Document.ofTextUnless cancelled text with
    | some document => b.storeModel l text document
    | none => b.postpone l

/-- Loads a model file. -/
def loadModel (disk : Disk) (b : Build) (l : Location) : Attempt Build :=
  (b.workspace.read disk l).map (b.takeModel l)

/-- The model files that a package owns, in order. -/
def owned (b : Build) (models : LocationSet) : List Location :=
  models.toList.filter fun l => (b.workspace.packages.packageFor? l).isSome

/-- Loads the model files that a package owns, in order. -/
def loadModels (disk : Disk) (b : Build) (models : LocationSet) : Attempt Build :=
  (b.owned models).foldlM (loadModel disk) b

/-- Whether a model file waits to be indexed. -/
def isReady (u : SourceUnit) : Bool :=
  u.isModel && u.state == .parsed

/-- The plan for indexing a file.  There is none without a package, or without a root
that declares an identifier. -/
def plan? (packages : PackageGraph) (u : SourceUnit) : Option UnitPlan := do
  let root ← u.document.root
  let package ← packages.packageFor? u.location
  (UnitPlan.ofRoot u.location package.id root).toOption

/-- A file behind indexing. -/
def markIndexed (u : SourceUnit) : Except LifecycleError SourceUnit :=
  if isReady u then u.advance .indexed else .ok u

/-- Indexes all files that wait for it. -/
def indexReady (b : Build) : Except LifecycleError Build := do
  let ws := b.workspace
  let ready := ws.units.values.filter isReady
  let cleared := ready.foldl (fun index u => index.withoutLocation u.location) ws.index
  let plans := ready.filterMap (plan? ws.packages)
  let index := plans.foldl (fun index plan => (index.insertUnit plan).2) cleared
  let units ← ws.units.updateAll markIndexed
  return { b with
    workspace := { ws with units := units, index := index }
    report := { b.report with indexed := b.report.indexed ++ ready.map (·.location) } }

end Build
end ModelWorkspace
