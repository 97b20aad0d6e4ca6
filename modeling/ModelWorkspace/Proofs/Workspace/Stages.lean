import ModelWorkspace.Proofs.Index.Batch
import ModelWorkspace.Proofs.Workspace.Attempts
import ModelWorkspace.Proofs.Workspace.Lifecycle

/-!
# What the stages of a build lead to

No stage of a build fails, unless a location is cut within a character: each of them is
described by the build behind it (`Workspace.update_gives`).  The loop over manifests is
packaged once, as an induction principle for statements about the build, the model files
that are to be loaded, and the queue.
-/

namespace ModelWorkspace

open Attempt

namespace Build

variable {b : Build}

/-! ## Removing files -/

theorem get?_removeAll (b : Build) (ls : List Location) (l : Location) :
    (ls.foldl removeUnit b).workspace.units.get? l =
      if l ∈ ls then none else b.workspace.units.get? l := by
  induction ls generalizing b with
  | nil => simp
  | cons first rest ih =>
      rw [List.foldl_cons, ih]
      show (if l ∈ rest then none else (b.workspace.units.erase first).get? l) = _
      rw [LocationMap.get?_erase]
      by_cases hrest : l ∈ rest
      · simp [hrest]
      · simp [hrest]

theorem units_setPackages (b : Build) (packages : PackageGraph) :
    (b.setPackages packages).workspace.units = b.workspace.units := rfl

/-- What the removal of one unit keeps is kept by the removal of several. -/
theorem removeAll_induction {Q : Build → Prop} (hremove : ∀ b l, Q b → Q (b.removeUnit l))
    (h : Q b) (ls : List Location) : Q (ls.foldl removeUnit b) := by
  induction ls generalizing b with
  | nil => exact h
  | cons l rest ih => exact ih (hremove b l h)

/-- The files that the deletion of a location removes. -/
def filesAt (b : Build) (l : Location) : List Location :=
  if l.extension.isSome then [l] else b.workspace.units.locationsWithin l

theorem filesAt_of_file {l : Location} (h : l.extension.isSome = true) : b.filesAt l = [l] :=
  if_pos h

theorem filesAt_of_directory {l : Location} (h : l.extension = none) :
    b.filesAt l = b.workspace.units.locationsWithin l := by
  rw [filesAt, h, Option.isSome_none, if_neg Bool.false_ne_true]

/-- A deletion removes files, and may put other packages in place. -/
theorem delete_cases (b : Build) (l : Location) :
    b.delete l = (b.filesAt l).foldl removeUnit b ∨
      ∃ packages, b.delete l = ((b.filesAt l).foldl removeUnit b).setPackages packages := by
  unfold delete filesAt
  split
  · unfold deleteFile
    dsimp only
    split
    · exact Or.inr ⟨_, rfl⟩
    · exact Or.inl rfl
  · unfold deleteDirectory
    dsimp only
    split
    · exact Or.inl rfl
    · exact Or.inr ⟨_, rfl⟩

/-- What the removal of one unit and any other packages keep is kept by a deletion. -/
theorem delete_induction {Q : Build → Prop} (hremove : ∀ b l, Q b → Q (b.removeUnit l))
    (hpackages : ∀ b packages, Q b → Q (b.setPackages packages)) (h : Q b) (l : Location) :
    Q (b.delete l) := by
  have hremoved := removeAll_induction hremove h (b.filesAt l)
  rcases b.delete_cases l with heq | ⟨packages, heq⟩
  · rw [heq]
    exact hremoved
  · rw [heq]
    exact hpackages _ _ hremoved

theorem get?_delete (b : Build) (l other : Location) :
    (b.delete l).workspace.units.get? other =
      if other ∈ b.filesAt l then none else b.workspace.units.get? other := by
  rcases b.delete_cases l with heq | ⟨packages, heq⟩
  · rw [heq, get?_removeAll]
  · rw [heq, units_setPackages, get?_removeAll]

/-- What one deletion keeps is kept by several. -/
theorem deleteAll_induction {Q : Build → Prop} (hdelete : ∀ b l, Q b → Q (b.delete l))
    (h : Q b) (ls : List Location) : Q (ls.foldl delete b) := by
  induction ls generalizing b with
  | nil => exact h
  | cons l rest ih =>
      rw [List.foldl_cons]
      exact ih (hdelete b l h)

/-- Removing units changes neither packages nor settings. -/
theorem frame_removeAll (b : Build) (ls : List Location) :
    (ls.foldl removeUnit b).workspace.packages = b.workspace.packages ∧
      (ls.foldl removeUnit b).workspace.config = b.workspace.config ∧
      (ls.foldl removeUnit b).packagesChanged = b.packagesChanged := by
  induction ls generalizing b with
  | nil => exact ⟨rfl, rfl, rfl⟩
  | cons first rest ih => exact ih (b.removeUnit first)

/-! ## Manifests -/

/-- The files below a root that is new. -/
def filesOfRoot (b : Build) (disk : Disk) : Option Location → List Location
  | some root => b.workspace.scanned disk root
  | none => []

theorem scanRoot_gives (b : Build) (disk : Disk) (root? : Option Location) :
    (b.scanRoot disk root?).GivesUnless disk.Splits (· = b.filesOfRoot disk root?) := by
  cases root? with
  | some root => exact b.workspace.scan_gives disk root
  | none => exact .of_ok rfl rfl

/-- The build behind what a manifest declares, with the files found. -/
def declaredPackage (b : Build) (disk : Disk) (l : Location) (m : Option Manifest) :
    Build × List Location :=
  let (next, root?) := b.declarePackage l m
  (next, next.filesOfRoot disk root?)

/-- What a manifest at a location does to the packages of a build: the build behind it, with
the files found. -/
inductive Declares (b : Build) (disk : Disk) (l : Location) (m : Option Manifest) :
    Build × List Location → Prop
  | known (same : b.workspace.packages.byManifest? l = m.bind (Package.ofManifest l)) :
      Declares b disk l m (b, [])
  | changed (p previous : Package) (declared : m.bind (Package.ofManifest l) = some p)
      (before : b.workspace.packages.byManifest? l = some previous) (other : previous ≠ p) :
      Declares b disk l m (b.setPackages (b.workspace.packages.insert p), [])
  | new (p : Package) (declared : m.bind (Package.ofManifest l) = some p)
      (before : b.workspace.packages.byManifest? l = none) :
      Declares b disk l m
        (b.setPackages (b.workspace.packages.insert p), b.workspace.scanned disk p.root)
  | gone (previous : Package) (declared : m.bind (Package.ofManifest l) = none)
      (before : b.workspace.packages.byManifest? l = some previous) :
      Declares b disk l m (b.setPackages (b.workspace.packages.removeManifest l), [])

theorem declares_declaredPackage (b : Build) (disk : Disk) (l : Location) (m : Option Manifest) :
    Declares b disk l m (b.declaredPackage disk l m) := by
  unfold declaredPackage declarePackage
  dsimp only
  cases hp : m.bind (Package.ofManifest l) with
  | some p =>
      cases hbefore : b.workspace.packages.byManifest? l with
      | some previous =>
          dsimp only
          split
          · rename_i hsame
            exact .known (by rw [hbefore, hp, hsame])
          · rename_i hother
            exact .changed p previous hp hbefore hother
      | none => exact .new p hp hbefore
  | none =>
      cases hbefore : b.workspace.packages.byManifest? l with
      | some previous => exact .gone previous hp hbefore
      | none => exact .known (by rw [hbefore, hp])

/-- What holds of a build, whatever its packages are, holds behind a manifest. -/
theorem declaredPackage_induction {Q : Build → Prop} (h : Q b)
    (hpackages : ∀ packages, Q (b.setPackages packages)) (disk : Disk) (l : Location)
    (m : Option Manifest) : Q (b.declaredPackage disk l m).1 := by
  have hdeclares := b.declares_declaredPackage disk l m
  generalize b.declaredPackage disk l m = result at hdeclares ⊢
  cases hdeclares with
  | known => exact h
  | changed => exact hpackages _
  | new => exact hpackages _
  | gone => exact hpackages _

/-- The build behind the loading of a manifest, with the files found. -/
def loadedManifest (b : Build) (disk : Disk) (l : Location) : Build × List Location :=
  match b.workspace.found disk l with
  | .missing => (b.delete l, [])
  | .unreadable => (b, [])
  | .text text =>
    (b.withManifest l text).declaredPackage disk l (Manifest.ofText text).toOption

theorem loadManifest_gives (b : Build) (disk : Disk) (l : Location) :
    (b.loadManifest disk l).GivesUnless disk.Splits (· = b.loadedManifest disk l) := by
  refine (b.workspace.read_gives disk l).bind fun loaded hfound => ?_
  unfold loadedManifest
  rw [← hfound]
  cases loaded with
  | missing => exact .of_ok rfl rfl
  | unreadable => exact .of_ok rfl rfl
  | text text =>
      dsimp only
      rw [storeManifest_eq]
      exact (scanRoot_gives _ disk _).bind fun _ hfiles => .of_ok rfl (hfiles ▸ rfl)

/-- A manifest that is not there is deleted, one that cannot be read is left as it is; otherwise
it is stored, and says what package it declares. -/
theorem loadedManifest_cases (b : Build) (disk : Disk) (l : Location) :
    (b.workspace.found disk l = .missing ∧ b.loadedManifest disk l = (b.delete l, [])) ∨
      (b.workspace.found disk l = .unreadable ∧ b.loadedManifest disk l = (b, [])) ∨
      ∃ text, b.workspace.found disk l = .text text ∧
        b.loadedManifest disk l =
          (b.withManifest l text).declaredPackage disk l (Manifest.ofText text).toOption := by
  unfold loadedManifest
  cases b.workspace.found disk l with
  | missing => exact .inl ⟨rfl, rfl⟩
  | unreadable => exact .inr (.inl ⟨rfl, rfl⟩)
  | text text => exact .inr (.inr ⟨text, rfl, rfl⟩)

/-- The files found that are not tracked. -/
def newFiles (b : Build) (disk : Disk) (l : Location) : List Location :=
  (b.loadedManifest disk l).2.filter fun found =>
    !(b.loadedManifest disk l).1.workspace.units.contains found

/-- Among the files found, the model files that are not tracked. -/
def newModels (b : Build) (disk : Disk) (l : Location) : List Location :=
  (b.newFiles disk l).filter fun found =>
    !(b.loadedManifest disk l).1.workspace.config.isManifest found

/-- The build behind the loading of all manifests of a queue and of those found on the way, with
the model files to load then. -/
def loadedManifests (disk : Disk) (b : Build) (models : LocationSet) (q : ManifestQueue) :
    Build × LocationSet :=
  match q with
  | ⟨[], _⟩ => (b, models)
  | ⟨l :: waiting, unseen⟩ =>
    loadedManifests disk (b.loadedManifest disk l).1 (models.addAll (b.newModels disk l))
      (ManifestQueue.offer ⟨waiting, unseen⟩ (b.newFiles disk l))
termination_by q.bound
decreasing_by
  -- files found leave the unseen ones when they start to wait
  rw [ManifestQueue.bound_offer]
  simp [ManifestQueue.bound]

theorem loadManifests_gives (disk : Disk) (b : Build) (models : LocationSet) (q : ManifestQueue) :
    (b.loadManifests disk models q).GivesUnless disk.Splits
      (· = loadedManifests disk b models q) := by
  induction b, models, q using loadedManifests.induct disk with
  | case1 b models unseen =>
      rw [loadManifests, loadedManifests]
      exact .of_ok rfl rfl
  | case2 b models l waiting unseen ih =>
      rw [loadManifests, loadedManifests]
      rcases b.loadManifest_gives disk l with ⟨_, hload, rfl⟩ | ⟨place, hload, hcut⟩
      · rw [hload]
        exact ih
      · rw [hload]
        exact .of_cut rfl hcut

/-- What holds at the start and is kept by the loading of each manifest holds when the
queue is empty. -/
theorem loadedManifests_induction {disk : Disk} {P : Build → LocationSet → ManifestQueue → Prop}
    (hstep : ∀ b models l waiting unseen, P b models ⟨l :: waiting, unseen⟩ →
      P (b.loadedManifest disk l).1 (models.addAll (b.newModels disk l))
        (ManifestQueue.offer ⟨waiting, unseen⟩ (b.newFiles disk l)))
    {models : LocationSet} {q : ManifestQueue} (hstart : P b models q) :
    ∃ last found unseen, loadedManifests disk b models q = (last, found) ∧
      P last found ⟨[], unseen⟩ := by
  induction b, models, q using loadedManifests.induct disk with
  | case1 b models unseen =>
      refine ⟨b, models, unseen, ?_, hstart⟩
      rw [loadedManifests]
  | case2 b models l waiting unseen ih =>
      rw [loadedManifests]
      exact ih (hstep b models l waiting unseen hstart)

/-- The same for statements about what waits: whatever `W` says of all manifests in the
queue and of those that may be found can be used when one of them is loaded. -/
theorem loadedManifests_induction_waiting {disk : Disk} {W : Location → Prop}
    {P : Build → LocationSet → List Location → Prop}
    (hmono : ∀ b models waiting more, waiting ⊆ more → P b models waiting → P b models more)
    (hstep : ∀ b models l waiting, W l → P b models (l :: waiting) →
      P (b.loadedManifest disk l).1 (models.addAll (b.newModels disk l)) waiting)
    {models : LocationSet} {q : ManifestQueue} (hq : ∀ l, l ∈ q.waiting ∨ l ∈ q.unseen → W l)
    (hstart : P b models q.waiting) :
    ∃ last found, loadedManifests disk b models q = (last, found) ∧ P last found [] := by
  let Q := fun (b : Build) (models : LocationSet) (q : ManifestQueue) =>
    P b models q.waiting ∧ ∀ l, l ∈ q.waiting ∨ l ∈ q.unseen → W l
  have hload : ∀ b models l waiting unseen, Q b models ⟨l :: waiting, unseen⟩ →
      Q (b.loadedManifest disk l).1 (models.addAll (b.newModels disk l))
        (ManifestQueue.offer ⟨waiting, unseen⟩ (b.newFiles disk l)) := by
    rintro b models l waiting unseen ⟨hb, hall⟩
    have hloaded := hstep b models l waiting (hall l (Or.inl List.mem_cons_self)) hb
    refine ⟨hmono _ _ waiting _ (List.subset_append_right _ waiting) hloaded,
      fun m hm => hall m ?_⟩
    -- what starts to wait has not been seen before
    rcases hm with hm | hm
    · rcases List.mem_append.mp hm with hnew | hbefore
      · exact Or.inr (List.mem_of_mem_filter (List.mem_reverse.mp hnew))
      · exact Or.inl (List.mem_cons_of_mem l hbefore)
    · exact Or.inr (List.mem_of_mem_filter hm)
  obtain ⟨last, found, unseen, hresult, hlast, -⟩ :=
    loadedManifests_induction (P := Q) hload ⟨hstart, hq⟩
  exact ⟨last, found, hresult, hlast⟩

/-! ## Model files -/

/-- The build behind the loading of a model file. -/
def loadedModel (disk : Disk) (b : Build) (l : Location) : Build :=
  b.takeModel l (b.workspace.found disk l)

theorem loadModel_gives (disk : Disk) (b : Build) (l : Location) :
    (b.loadModel disk l).GivesUnless disk.Splits (· = loadedModel disk b l) :=
  (b.workspace.read_gives disk l).map fun _ h => h ▸ rfl

/-- A parse uses up the request to call it off. -/
theorem cancelRequests_beginParse (b : Build) (l : Location) :
    (b.beginParse l).2.workspace.cancelRequests = b.workspace.cancelRequests.erase l := rfl

/-- A model file is removed if it is not there, and left as it is if it cannot be read; otherwise
its parse is put off or it is stored. -/
theorem loadedModel_cases (disk : Disk) (b : Build) (l : Location) :
    (b.workspace.found disk l = .missing ∧ loadedModel disk b l = b.removeUnit l) ∨
      (b.workspace.found disk l = .unreadable ∧ loadedModel disk b l = b) ∨
      ∃ text, b.workspace.found disk l = .text text ∧
        ((b.workspace.cancelRequests.contains l = true ∧
            loadedModel disk b l = (b.beginParse l).2.postpone l) ∨
          (b.workspace.cancelRequests.contains l = false ∧
            loadedModel disk b l =
              (b.beginParse l).2.storeModel l text (Document.ofText text))) := by
  unfold loadedModel
  cases b.workspace.found disk l with
  | missing => exact .inl ⟨rfl, rfl⟩
  | unreadable => exact .inr (.inl ⟨rfl, rfl⟩)
  | text text =>
      have hflag : (b.beginParse l).1 = b.workspace.cancelRequests.contains l := rfl
      refine .inr (.inr ⟨text, rfl, ?_⟩)
      unfold takeModel
      dsimp only
      rw [hflag]
      cases b.workspace.cancelRequests.contains l with
      | true => exact .inl ⟨rfl, rfl⟩
      | false => exact .inr ⟨rfl, rfl⟩

/-- The build behind the loading of the model files that a package owns. -/
def loadedModels (disk : Disk) (b : Build) (models : LocationSet) : Build :=
  (b.owned models).foldl (loadedModel disk) b

theorem loadModels_gives (disk : Disk) (b : Build) (models : LocationSet) :
    (b.loadModels disk models).GivesUnless disk.Splits (· = loadedModels disk b models) :=
  GivesUnless.foldlM (loadModel_gives disk) b _

/-- A unit behind a change of packages. -/
def resetUnit (u : SourceUnit) : SourceUnit :=
  if u.isModel ∧ LifecycleState.parsed < u.state then u.parsedAgain else u

/-- A unit behind indexing. -/
def indexedUnit (u : SourceUnit) : SourceUnit :=
  if isReady u then { u with state := .indexed } else u

/-- The build behind a change of packages. -/
def reset (b : Build) : Build :=
  { b.dropOrphans with
    workspace :=
      { b.dropOrphans.workspace with
        units := b.dropOrphans.workspace.units.map fun _ => resetUnit } }

theorem resetForPackages_eq (b : Build) : b.resetForPackages = .ok b.reset := by
  unfold resetForPackages
  dsimp only
  rw [LocationMap.updateAll_eq_map _ _ resetUnit fun _ u _ => backToParsed_eq u]
  rfl

/-- The units that wait to be indexed, in the order of their locations. -/
def readyUnits (b : Build) : List SourceUnit :=
  b.workspace.units.values.filter isReady

/-- The index behind indexing. -/
def indexBehind (b : Build) : Index :=
  (b.workspace.index.clearAll (b.readyUnits.map (·.location))).insertAll
    (b.readyUnits.filterMap (plan? b.workspace.packages))

/-- The build behind indexing. -/
def indexed (b : Build) : Build :=
  { b with
    workspace :=
      { b.workspace with
        units := b.workspace.units.map fun _ => indexedUnit
        index := b.indexBehind }
    report := { b.report with
      indexed := b.report.indexed ++ b.readyUnits.map (·.location) } }

theorem indexReady_eq (b : Build) : b.indexReady = .ok b.indexed := by
  unfold indexReady
  dsimp only
  rw [LocationMap.updateAll_eq_map _ _ indexedUnit fun _ u _ => markIndexed_eq u]
  unfold indexed indexBehind Index.clearAll
  rw [List.foldl_map]
  rfl

/-! ## Links -/

/-- A unit behind linking. -/
def linkedUnit (b : Build) (u : SourceUnit) : SourceUnit :=
  if b.needsLink b.affected u then u.linkedBy b.workspace.linker else u

/-- The build behind linking. -/
def linked (b : Build) : Build :=
  let targets := (b.workspace.units.values.filter (b.needsLink b.affected)).map (·.location)
  { b with
    workspace := { b.workspace with units := b.workspace.units.map fun _ => b.linkedUnit }
    report :=
      { b.report with
        linked := b.report.linked ++ targets
        validated := b.report.validated ++ targets } }

theorem relink_eq (b : Build) : b.relink = .ok b.linked := by
  have hupdate : ∀ key u, b.workspace.units.get? key = some u →
      (if b.needsLink b.affected u then relinkUnit b.workspace.linker u else .ok u) =
        .ok (b.linkedUnit u) := by
    intro _ u _
    unfold linkedUnit
    split
    · rename_i h
      exact relinkUnit_eq (isModel_of_needsLink h).2
    · rfl
  unfold relink
  dsimp only
  rw [LocationMap.updateAll_eq_map _ _ b.linkedUnit hupdate]
  rfl

/-! ## The whole build -/

/-- The build with all files loaded, given what the loading of manifests leads to. -/
def loaded (b : Build) (disk : Disk) (models : LocationSet) : Build :=
  (if b.packagesChanged then b.reset else b).loadedModels disk models

/-- What a change of packages and the loading of one model file keep is kept by the loading of
all. -/
theorem loaded_induction {disk : Disk} {Q : Build → Prop}
    (hload : ∀ b l, Q b → Q (loadedModel disk b l)) (hreset : Q b → Q b.reset) (h : Q b)
    (models : LocationSet) : Q (b.loaded disk models) := by
  have hfold : ∀ (ls : List Location) (c : Build), Q c → Q (ls.foldl (loadedModel disk) c) := by
    intro ls
    induction ls with
    | nil => exact fun _ hc => hc
    | cons l rest ih => exact fun c hc => ih _ (hload c l hc)
  refine hfold _ _ ?_
  split
  · exact hreset h
  · exact h

/-- The build behind all of its stages, given what the loading of manifests leads to. -/
def finished (b : Build) (disk : Disk) (models : LocationSet) : Build :=
  let linked := (b.loaded disk models).indexed.linked
  if linked.packagesChanged ∨ linked.report.parsed ≠ [] then linked.refreshManifests else linked

/-- The last stage changes units at most. -/
theorem exists_finished_eq (b : Build) (disk : Disk) (models : LocationSet) :
    ∃ units, b.finished disk models =
      { (b.loaded disk models).indexed.linked with
        workspace := { (b.loaded disk models).indexed.linked.workspace with units := units } } := by
  unfold finished
  generalize (b.loaded disk models).indexed.linked = linked
  dsimp only
  split
  · exact ⟨linked.refreshManifests.workspace.units, rfl⟩
  · exact ⟨linked.workspace.units, rfl⟩

/-- The files that a build loads. -/
def requested (b : Build) (disk : Disk) (changed : List Location) : LocationSet :=
  (Workspace.takePending b).1.addAll
    ((Workspace.takePending b).2.workspace.reached disk changed)

/-- The manifests that a build loads first, in order. -/
def requestedManifests (b : Build) (disk : Disk) (changed : List Location) : List Location :=
  (b.requested disk changed).toList.filter b.workspace.config.isManifest

/-- The model files that a build loads, apart from those found with manifests. -/
def requestedModels (b : Build) (disk : Disk) (changed : List Location) : LocationSet :=
  (b.requested disk changed).filter fun l _ => !b.workspace.config.isManifest l

theorem mem_requestedModels {disk : Disk} {changed : List Location} {l : Location} :
    l ∈ (b.requestedModels disk changed).toList ↔
      l ∈ (b.requested disk changed).toList ∧ b.workspace.config.isManifest l = false := by
  unfold requestedModels LocationSet.toList
  rw [LocationMap.mem_keys_iff, LocationMap.mem_keys_iff]
  constructor
  · rintro ⟨value, hget⟩
    rw [LocationMap.get?_filter, Option.filter_eq_some_iff] at hget
    exact ⟨⟨value, hget.1⟩, by simpa using hget.2⟩
  · rintro ⟨⟨value, hget⟩, hmanifest⟩
    refine ⟨value, ?_⟩
    rw [LocationMap.get?_filter, Option.filter_eq_some_iff]
    exact ⟨hget, by rw [hmanifest]; rfl⟩

/-- The manifests that wait at the start of a build, and those that may still be found. -/
def queue (b : Build) (disk : Disk) (changed : List Location) : ManifestQueue :=
  ManifestQueue.ofDisk b.workspace.config disk (b.requestedManifests disk changed)

theorem isManifest_of_mem_queue {disk : Disk} {changed : List Location} {l : Location}
    (h : l ∈ (b.queue disk changed).waiting ∨ l ∈ (b.queue disk changed).unseen) :
    b.workspace.config.isManifest l = true := by
  rcases h with h | h
  · exact (List.mem_filter.mp (List.mem_reverse.mp h)).2
  · exact (Bool.and_eq_true_iff.mp (List.mem_filter.mp h).2).1

/-- The build behind all of its stages. -/
def completed (b : Build) (disk : Disk) (changed : List Location) : Build :=
  let (last, models) := loadedManifests disk (Workspace.takePending b).2
    (b.requestedModels disk changed) (b.queue disk changed)
  last.finished disk models

theorem completed_eq {disk : Disk} {changed : List Location} {last : Build}
    {models : LocationSet}
    (hload : loadedManifests disk (Workspace.takePending b).2 (b.requestedModels disk changed)
      (b.queue disk changed) = (last, models)) :
    b.completed disk changed = last.finished disk models := by
  unfold completed
  rw [hload]

/-- Apart from the loading of model files, all stages behind the manifests lead somewhere. -/
theorem finishBuild_eq (disk : Disk) (last : Build) (models : LocationSet) :
    Workspace.finishBuild disk last models =
      ((if last.packagesChanged then last.reset else last).loadModels disk models).map fun b =>
        let linked := b.indexed.linked
        if linked.packagesChanged ∨ linked.report.parsed ≠ [] then linked.refreshManifests
        else linked := by
  have hreset : (if last.packagesChanged then last.resetForPackages else .ok last) =
      .ok (if last.packagesChanged then last.reset else last) := by
    rw [resetForPackages_eq]
    split <;> rfl
  unfold Workspace.finishBuild
  rw [hreset]
  show (loadModels disk _ models >>= _ : Attempt Build) = _
  cases loadModels disk (if last.packagesChanged then last.reset else last) models with
  | error failure => rfl
  | ok b =>
      show (ofSteps b.indexReady >>= _ : Attempt Build) = _
      rw [indexReady_eq]
      show (ofSteps b.indexed.relink >>= _ : Attempt Build) = _
      rw [relink_eq]
      rfl

theorem finishBuild_gives (disk : Disk) (last : Build) (models : LocationSet) :
    (Workspace.finishBuild disk last models).GivesUnless disk.Splits
      (· = last.finished disk models) := by
  rw [finishBuild_eq]
  exact (loadModels_gives disk _ models).map fun _ hb => hb ▸ rfl

/-- A build takes the pending files, loads manifests, and finishes. -/
theorem runBuild_gives (b : Build) (disk : Disk) (changed : List Location) :
    (Workspace.runBuild disk b changed).GivesUnless disk.Splits
      (· = b.completed disk changed) := by
  unfold Workspace.runBuild
  dsimp only
  refine ((Workspace.takePending b).2.workspace.changedFiles_gives disk changed).bind
    fun files hfiles => ?_
  subst hfiles
  refine (loadManifests_gives disk (Workspace.takePending b).2 (b.requestedModels disk changed)
    (b.queue disk changed)).bind fun result hresult => ?_
  unfold completed
  rw [← hresult]
  exact finishBuild_gives disk result.1 result.2

end Build

namespace Workspace

/-- The build behind an update. -/
def updated (ws : Workspace) (disk : Disk) (changed deleted : List Location) : Build :=
  (ws.begun disk deleted).completed disk changed

/-- An update gives the build behind it. -/
theorem update_gives (ws : Workspace) (disk : Disk) (changed deleted : List Location) :
    (ws.update disk changed deleted).GivesUnless disk.Splits
      (· = ((ws.updated disk changed deleted).report,
        (ws.updated disk changed deleted).workspace)) :=
  (ws.beginBuild_gives disk deleted).bind fun _ hbegun =>
    (Build.runBuild_gives _ disk changed).bind fun _ hbuild => .of_ok rfl (by
      rw [hbuild, hbegun]
      rfl)

/-- The build behind an update is where its stages lead. -/
theorem update_runs (ws : Workspace) (disk : Disk) (changed deleted : List Location) :
    (ws.update disk changed deleted).GivesUnless disk.Splits fun (report, next) =>
      ∃ begun b, ws.beginBuild disk deleted = .ok begun ∧ runBuild disk begun changed = .ok b ∧
        b = ws.updated disk changed deleted ∧ report = b.report ∧ next = b.workspace :=
  (ws.beginBuild_gives disk deleted).with_eq.bind fun begun ⟨hbegun, hbegunEq⟩ =>
    (Build.runBuild_gives begun disk changed).with_eq.bind fun b ⟨hb, hbEq⟩ =>
      .of_ok rfl ⟨begun, b, hbegun, hb, by rw [hbEq, hbegunEq, updated], rfl, rfl⟩

/-- What holds of the build behind an update holds of what the update gives. -/
theorem update_gives_of {ws : Workspace} {disk : Disk} {changed deleted : List Location}
    {P : BuildReport × Workspace → Prop}
    (h : P ((ws.updated disk changed deleted).report,
      (ws.updated disk changed deleted).workspace)) :
    (ws.update disk changed deleted).GivesUnless disk.Splits P :=
  (ws.update_gives disk changed deleted).mono fun _ hresult => hresult ▸ h

/-- An update is described by the build behind its manifests. -/
theorem updated_eq {ws : Workspace} {disk : Disk} {changed deleted : List Location}
    {last : Build} {models : LocationSet}
    (hload : Build.loadedManifests disk (takePending (ws.begun disk deleted)).2
      ((ws.begun disk deleted).requestedModels disk changed)
      ((ws.begun disk deleted).queue disk changed) = (last, models)) :
    ws.updated disk changed deleted = last.finished disk models :=
  Build.completed_eq hload

end Workspace

end ModelWorkspace
