import ModelWorkspace.Workspace.Build.Basic

/-!
# Loading manifests

Manifests are loaded before model files, because they decide which model files
belong to the workspace.  A package at a new root brings in the files below that
root, among them further manifests.

The manifest queue bounds the work: every manifest on the disk that has not been in
the queue waits in `unseen`, and what is found moves from there into the queue.
-/

namespace ModelWorkspace

/-- Manifests that have to be loaded, and those that may still be found. -/
structure ManifestQueue where
  /-- The manifests to load, the next one first. -/
  waiting : List Location
  /-- The other manifests on the disk that have never been in the queue, in order. -/
  unseen : List Location
deriving Repr

namespace ManifestQueue

/-- How many manifests may still be loaded. -/
def bound (q : ManifestQueue) : Nat :=
  q.unseen.length + q.waiting.length

/-- The queue with all found manifests that have never been in it, the last one first. -/
def offer (q : ManifestQueue) (found : List Location) : ManifestQueue :=
  { waiting := (q.unseen.filter fun l => found.contains l).reverse ++ q.waiting
    unseen := q.unseen.filter fun l => !found.contains l }

@[simp] theorem bound_offer (q : ManifestQueue) (found : List Location) :
    (q.offer found).bound = q.bound := by
  have h := q.unseen.length_eq_countP_add_countP fun l => found.contains l
  simp only [List.countP_eq_length_filter, Bool.not_eq_true, Bool.decide_eq_false] at h
  simp only [offer, bound, List.length_append, List.length_reverse]
  omega

/-- The queue for the given manifests, the last one first, on a disk. -/
def ofDisk (config : WorkspaceConfig) (disk : Disk) (manifests : List Location) :
    ManifestQueue :=
  let onDisk := LocationSet.ofList (disk.files.keys.map disk.canonical)
  { waiting := manifests.reverse
    unseen := onDisk.toList.filter fun l => config.isManifest l && !manifests.contains l }

end ManifestQueue

namespace Build

/-- Takes every step of the lifecycle up to a state. -/
def advanceTo (u : SourceUnit) (target : LifecycleState) : Except LifecycleError SourceUnit :=
  (LifecycleState.all.filter fun s => u.state < s ∧ ¬ target < s).foldlM SourceUnit.advance u

/-- Tracks a manifest with the given text, whether it is well formed or not. -/
def storeManifest (b : Build) (l : Location) (text : String) :
    Except LifecycleError Build := do
  let u := { SourceUnit.ofText l .manifest text with manifest := (Manifest.ofText text).toOption }
  let u ← advanceTo u .validated
  return { b with
    workspace := { b.workspace with units := b.workspace.units.put u }
    report := { b.report with parsed := b.report.parsed ++ [l] } }

/-- Puts the package that a manifest declares into the graph; a manifest that declares
none takes its package out.  A root that is new is to be scanned. -/
def declarePackage (b : Build) (l : Location) (manifest : Option Manifest) :
    Build × Option Location :=
  let packages := b.workspace.packages
  match manifest.bind (Package.ofManifest l), packages.byManifest? l with
  | some p, some previous =>
    if previous = p then (b, none) else (b.setPackages (packages.insert p), none)
  | some p, none => (b.setPackages (packages.insert p), some p.root)
  | none, some _ => (b.setPackages (packages.removeManifest l), none)
  | none, none => (b, none)

/-- The files below a root that is new. -/
def scanRoot (b : Build) (disk : Disk) : Option Location → Attempt (List Location)
  | some root => b.workspace.scan disk root
  | none => .ok []

/-- Loads a manifest, or deletes it if it is not there.  One that cannot be read is left
as it is.  The files found are to be loaded too. -/
def loadManifest (b : Build) (disk : Disk) (l : Location) :
    Attempt (Build × List Location) := do
  match ← b.workspace.read disk l with
  | .missing => return (b.delete l, [])
  | .unreadable => return (b, [])
  | .text text =>
    let b ← Attempt.ofSteps (b.storeManifest l text)
    let (b, root?) := b.declarePackage l (Manifest.ofText text).toOption
    return (b, ← b.scanRoot disk root?)

/-- Loads the manifests in a queue and those found on the way; `models` are the model
files to load behind them. -/
def loadManifests (disk : Disk) (b : Build) (models : LocationSet) (q : ManifestQueue) :
    Attempt (Build × LocationSet) :=
  match q with
  | ⟨[], _⟩ => .ok (b, models)
  | ⟨l :: waiting, unseen⟩ =>
    match b.loadManifest disk l with
    | .error e => .error e
    | .ok (b, found) =>
      let new := found.filter fun l => !b.workspace.units.contains l
      let newModels := new.filter fun l => !b.workspace.config.isManifest l
      loadManifests disk b (models.addAll newModels)
        (ManifestQueue.offer ⟨waiting, unseen⟩ new)
termination_by q.bound
decreasing_by
  rw [ManifestQueue.bound_offer]
  simp [ManifestQueue.bound]

end Build

end ModelWorkspace
