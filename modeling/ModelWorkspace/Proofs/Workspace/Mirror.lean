import ModelWorkspace.Proofs.Workspace.Linking
import ModelWorkspace.Proofs.Workspace.Pruning

/-!
# The workspace mirrors the disk

As long as everything that happens on the disk is reported, the packages are those that
manifests on the disk declare, and the model units are the model files that these packages
own, with their texts.

While manifests are loaded, a package may still be wrong if its manifest waits in the
queue, and a model unit may be missing or old if its file is to be loaded.  The queue
empties first, then the model files are loaded.

What holds of the model units does not depend on whether the packages are right: they are
the files that the packages own, whatever these are.  So units and packages are treated
one after the other, and a file may be lost to the units for a reason of its own.
-/

namespace ModelWorkspace

open SourceUnit

theorem PackageGraph.packageFor?_isSome_iff {g : PackageGraph} {l : Location} :
    (g.packageFor? l).isSome = true ↔
      ∃ root p, g.packages.get? root = some p ∧ l.isBelow root = true := by
  unfold packageFor?
  rw [Option.isSome_map]
  exact LocationMap.deepest?_isSome_iff

namespace Workspace

/-- The model units of a workspace are the model files of a disk that packages own, apart
from files that are lost. -/
structure Tracks (ws : Workspace) (disk : Disk) (lost : Location → Prop) : Prop where
  quiet : ws.Quiet
  unit_file : ∀ l u, ws.units.get? l = some u → u.isModel = true →
    ws.config.isModelFile l = true ∧ disk.files.get? l = some u.text
  file_unit : ∀ l text, disk.files.get? l = some text → ws.config.isModelFile l = true →
    ws.config.isManifest l = false → (ws.packages.packageFor? l).isSome = true →
      lost l ∨ ∃ u, ws.units.get? l = some u ∧ u.isModel = true

/-- The packages and model units of a workspace are those of a disk. -/
structure Mirrors (ws : Workspace) (disk : Disk) : Prop extends
    ws.Tracks disk fun _ => False where
  package_declared : ∀ root p, ws.packages.packages.get? root = some p →
    disk.Declares ws.config p.manifest p
  declared_package : ∀ m p, disk.Declares ws.config m p →
    ws.packages.packages.get? p.root = some p

/-- A workspace without packages tracks nothing, whatever is on the disk. -/
theorem Tracks.ofConfig (config : WorkspaceConfig) (disk : Disk) (lost : Location → Prop) :
    (Workspace.ofConfig config).Tracks disk lost where
  quiet := ⟨fun _ => rfl, fun _ => rfl, fun _ => rfl⟩
  unit_file := fun _ _ hu => nomatch hu
  file_unit := by
    intro l _ _ _ _ howned
    obtain ⟨root, p, hp, -⟩ := PackageGraph.packageFor?_isSome_iff.mp howned
    cases hp

theorem Mirrors.ofConfig (config : WorkspaceConfig) :
    (Workspace.ofConfig config).Mirrors Disk.empty where
  toTracks := Tracks.ofConfig config Disk.empty _
  package_declared := fun _ _ hp => nomatch hp
  declared_package := by
    rintro m p ⟨text, htext, -⟩
    cases htext

/-- Without buffers, files are read from the disk. -/
theorem Quiet.found_eq {ws : Workspace} (h : ws.Quiet) {disk : Disk} (hdisk : disk.Plain)
    (l : Location) :
    ws.found disk l =
      match disk.files.get? l with
      | some text => .text text
      | none => .missing := by
  unfold found
  rw [h.buffers, hdisk.canonical_eq]
  exact hdisk.ofAnswer_textAt l l

theorem Quiet.found_eq_missing_iff {ws : Workspace} (h : ws.Quiet) {disk : Disk}
    (hdisk : disk.Plain) {l : Location} :
    ws.found disk l = .missing ↔ disk.files.get? l = none := by
  rw [h.found_eq hdisk]
  cases disk.files.get? l <;> simp

theorem Quiet.found_eq_text_iff {ws : Workspace} (h : ws.Quiet) {disk : Disk}
    (hdisk : disk.Plain) {l : Location} {text : String} :
    ws.found disk l = .text text ↔ disk.files.get? l = some text := by
  rw [h.found_eq hdisk]
  cases disk.files.get? l <;> simp

theorem Quiet.found_ne_unreadable {ws : Workspace} (h : ws.Quiet) {disk : Disk}
    (hdisk : disk.Plain) (l : Location) : ws.found disk l ≠ .unreadable := by
  rw [h.found_eq hdisk]
  cases disk.files.get? l <;> simp

end Workspace

namespace Build

variable {old : Workspace} {b : Build} {disk : Disk} {f l : Location}

theorem isTracked_of_isModelFile {config : WorkspaceConfig}
    (h : config.isModelFile l = true) : config.isTracked l = true := by
  unfold WorkspaceConfig.isTracked
  rw [h]
  rfl

theorem isTracked_of_isManifest {config : WorkspaceConfig}
    (h : config.isManifest l = true) : config.isTracked l = true := by
  unfold WorkspaceConfig.isTracked
  rw [h, Bool.or_true]

/-- Model files have an extension. -/
theorem extension_of_isModelFile {config : WorkspaceConfig}
    (h : config.isModelFile l = true) : l.extension.isSome = true := by
  unfold WorkspaceConfig.isModelFile at h
  split at h
  · rename_i hextension
    rw [hextension]
    rfl
  · cases h

/-! ## One manifest -/

theorem units_declaredPackage (b : Build) (disk : Disk) (l : Location) (m : Option Manifest) :
    (b.declaredPackage disk l m).1.workspace.units = b.workspace.units :=
  declaredPackage_induction (Q := fun next => next.workspace.units = b.workspace.units) rfl
    b.units_setPackages disk l m

/-- Behind a manifest with a text, its unit is the manifest, and the others are as they were. -/
theorem unit_declaredPackage (b : Build) (disk : Disk) (l : Location) (text : String)
    (other : Location) :
    ((b.withManifest l text).declaredPackage disk l
      (Manifest.ofText text).toOption).1.workspace.units.get? other =
      if other = l then some (ofManifestText l text) else b.workspace.units.get? other := by
  rw [units_declaredPackage]
  exact unit_withManifest b l text other

theorem quiet_declaredPackage (h : b.workspace.Quiet) (disk : Disk) (l : Location)
    (m : Option Manifest) : (b.declaredPackage disk l m).1.workspace.Quiet :=
  declaredPackage_induction (Q := fun next => next.workspace.Quiet) h
    (fun _ => ⟨h.buffers, h.cancelRequests, h.pending⟩) disk l m

/-- Behind a manifest, its directory is the root of what it declares, and only that. -/
theorem packages_declaredPackage (b : Build) (disk : Disk) (l : Location) (text : String)
    (root : Location) :
    (b.declaredPackage disk l (Manifest.ofText text).toOption).1.workspace.packages.packages.get?
        root =
      if l.parent = some root then (Manifest.ofText text).toOption.bind (Package.ofManifest l)
      else b.workspace.packages.packages.get? root := by
  have hprevious : ∀ {q : Option Package}, b.workspace.packages.byManifest? l = q →
      l.parent = some root → b.workspace.packages.packages.get? root = q := by
    intro q hq hparent
    unfold PackageGraph.byManifest? at hq
    rw [hparent] at hq
    exact hq
  have hinsert : ∀ {p : Package}, (Manifest.ofText text).toOption.bind (Package.ofManifest l) =
      some p → (b.workspace.packages.insert p).packages.get? root =
        if l.parent = some root then some p else b.workspace.packages.packages.get? root := by
    intro p hp
    obtain ⟨-, -, hparent⟩ := Package.isDeclared_of_bind hp
    unfold PackageGraph.insert
    rw [LocationMap.get?_insert, hparent]
    by_cases hroot : root = p.root
    · rw [if_pos hroot, if_pos (by rw [hroot])]
    · rw [if_neg hroot, if_neg fun heq => hroot (Option.some.inj heq).symm]
  have hdeclares := b.declares_declaredPackage disk l (Manifest.ofText text).toOption
  generalize b.declaredPackage disk l (Manifest.ofText text).toOption = result at hdeclares ⊢
  cases hdeclares with
  | known hsame =>
      by_cases hparent : l.parent = some root
      · rw [if_pos hparent, hprevious hsame hparent]
      · rw [if_neg hparent]
  | changed p _ hp =>
      rw [hp]
      exact hinsert hp
  | new p hp =>
      rw [hp]
      exact hinsert hp
  | gone _ hp =>
      rw [hp]
      show (b.workspace.packages.removeManifest l).packages.get? root = _
      unfold PackageGraph.removeManifest
      cases hparent : l.parent with
      | none => rfl
      | some r =>
          dsimp only
          rw [LocationMap.get?_erase]
          by_cases hroot : root = r
          · rw [if_pos hroot, if_pos (by rw [hroot])]
          · rw [if_neg hroot, if_neg fun heq => hroot (Option.some.inj heq).symm]

/-- The files below a root that is new are found, and nothing else is. -/
theorem found_declaredPackage (b : Build) (disk : Disk) (l : Location) (text : String) :
    ((b.declaredPackage disk l (Manifest.ofText text).toOption).2 = [] ∧
      ∀ root, ((b.declaredPackage disk l
          (Manifest.ofText text).toOption).1.workspace.packages.packages.get? root).isSome = true →
        (b.workspace.packages.packages.get? root).isSome = true) ∨
      ∃ root, (b.declaredPackage disk l (Manifest.ofText text).toOption).2 =
          b.workspace.scanned disk root ∧
        ∀ other, other ≠ root → ((b.declaredPackage disk l
            (Manifest.ofText text).toOption).1.workspace.packages.packages.get? other).isSome =
              true →
          (b.workspace.packages.packages.get? other).isSome = true := by
  have hpackages := packages_declaredPackage b disk l text
  have hdeclares := b.declares_declaredPackage disk l (Manifest.ofText text).toOption
  generalize b.declaredPackage disk l (Manifest.ofText text).toOption = result
    at hpackages hdeclares ⊢
  cases hdeclares with
  | known => exact .inl ⟨rfl, fun _ hroot => hroot⟩
  | changed p previous _ hbefore =>
      refine .inl ⟨rfl, fun root hroot => ?_⟩
      rw [hpackages] at hroot
      split at hroot
      · -- the directory of the manifest was a root before
        rename_i hown
        unfold PackageGraph.byManifest? at hbefore
        rw [hown] at hbefore
        show (b.workspace.packages.atRoot? root).isSome = true
        rw [show b.workspace.packages.atRoot? root = some previous from hbefore]
        rfl
      · exact hroot
  | new p hp =>
      obtain ⟨-, -, hparent⟩ := Package.isDeclared_of_bind hp
      refine .inr ⟨p.root, rfl, fun other hother hroot => ?_⟩
      rw [hpackages, hparent, if_neg fun heq => hother (Option.some.inj heq).symm] at hroot
      exact hroot
  | gone _ hp =>
      refine .inl ⟨rfl, fun root hroot => ?_⟩
      rw [hpackages, hp] at hroot
      split at hroot
      · cases hroot
      · exact hroot

/-- What is found with a manifest is found in a directory. -/
theorem exists_scan_of_mem_found (b : Build) {text : String}
    (hl : l ∈ (b.declaredPackage disk f (Manifest.ofText text).toOption).2) :
    ∃ root, l ∈ b.workspace.scanned disk root := by
  rcases found_declaredPackage b disk f text with ⟨hnone, -⟩ | ⟨root, hscan, -⟩
  · rw [hnone] at hl
    exact absurd hl List.not_mem_nil
  · exact ⟨root, hscan ▸ hl⟩

theorem exists_scan_of_mem_loadedManifest (b : Build) {disk : Disk} {l m : Location}
    (hl : l ∈ (b.loadedManifest disk m).2) : ∃ root, l ∈ b.workspace.scanned disk root := by
  rcases b.loadedManifest_cases disk m with ⟨-, heq⟩ | ⟨-, heq⟩ | ⟨text, -, heq⟩
  · rw [heq] at hl
    exact absurd hl List.not_mem_nil
  · rw [heq] at hl
    exact absurd hl List.not_mem_nil
  · rw [heq] at hl
    exact exists_scan_of_mem_found (b.withManifest m text) hl

/-- A tracked file that a package owns behind a manifest was owned before, or is found. -/
theorem owned_or_found (b : Build) (hdisk : disk.Plain) {text other : String}
    (hother : disk.files.get? l = some other) (htracked : b.workspace.config.isTracked l = true)
    (howned : ((b.declaredPackage disk f
      (Manifest.ofText text).toOption).1.workspace.packages.packageFor? l).isSome = true) :
    (b.workspace.packages.packageFor? l).isSome = true ∨
      l ∈ (b.declaredPackage disk f (Manifest.ofText text).toOption).2 := by
  obtain ⟨root, p, hp, hbelow⟩ := PackageGraph.packageFor?_isSome_iff.mp howned
  have hbefore : (b.workspace.packages.packages.get? root).isSome = true →
      (b.workspace.packages.packageFor? l).isSome = true := by
    intro hsome
    obtain ⟨q, hq⟩ := Option.isSome_iff_exists.mp hsome
    exact PackageGraph.packageFor?_isSome_iff.mpr ⟨root, q, hq, hbelow⟩
  have hroot := Option.isSome_iff_exists.mpr ⟨p, hp⟩
  rcases found_declaredPackage b disk f text with ⟨-, hroots⟩ | ⟨scanned, hscan, hroots⟩
  · exact Or.inl (hbefore (hroots root hroot))
  · by_cases hnew : root = scanned
    · -- the root is new, so the files below it are looked for
      right
      rw [hscan, hdisk.mem_scan_iff]
      exact ⟨⟨other, hother⟩, hnew ▸ hbelow, htracked⟩
    · exact Or.inl (hbefore (hroots root hnew hroot))

/-- Of the files found, a model file is to be loaded unless it has a unit. -/
theorem Loading.new_or_tracked (h : Loading old b) {found : List Location} (hmem : f ∈ found)
    (hnot : old.config.isManifest f = false) :
    f ∈ (found.filter fun f => !b.workspace.units.contains f).filter
        (fun f => !b.workspace.config.isManifest f) ∨
      ∃ u, b.workspace.units.get? f = some u ∧ u.isModel = true := by
  cases hu : b.workspace.units.get? f with
  | some u =>
      refine Or.inr ⟨u, rfl, ?_⟩
      rw [(h.wellFormed f u hu).isModel_eq, hnot]
      rfl
  | none =>
      refine Or.inl (List.mem_filter.mpr ⟨List.mem_filter.mpr ⟨hmem, ?_⟩, ?_⟩)
      · rw [LocationMap.contains_eq_isSome, hu]
        rfl
      · rw [h.config_eq, hnot]
        rfl

/-! ## Catching up with the manifests -/

/-- A build whose model units are those of a disk, apart from `models`, which are still to
be loaded, and from files that are lost. -/
structure Adopting (old : Workspace) (disk : Disk) (lost : Location → Prop)
    (models : LocationSet) (b : Build) : Prop where
  loading : Loading old b
  quiet : b.workspace.Quiet
  unit_file : ∀ l u, b.workspace.units.get? l = some u → u.isModel = true →
    old.config.isModelFile l = true ∧
      (disk.files.get? l = some u.text ∨ l ∈ models.toList)
  file_unit : ∀ l text, disk.files.get? l = some text → old.config.isModelFile l = true →
    old.config.isManifest l = false → (b.workspace.packages.packageFor? l).isSome = true →
      lost l ∨ l ∈ models.toList ∨ ∃ u, b.workspace.units.get? l = some u ∧ u.isModel = true
  tracked : ∀ l ∈ models.toList,
    old.config.isTracked l = true ∧ old.config.isManifest l = false

/-- A build that catches up with a disk: `waiting` are the manifests that are still to be
loaded, `models` the model files. -/
structure Catching (old : Workspace) (disk : Disk) (waiting : List Location)
    (models : LocationSet) (b : Build) : Prop extends
    Adopting old disk (fun _ => False) models b where
  package_declared : ∀ root p, b.workspace.packages.packages.get? root = some p →
    disk.Declares old.config p.manifest p ∨ p.manifest ∈ waiting
  declared_package : ∀ m p, disk.Declares old.config m p →
    b.workspace.packages.packages.get? p.root = some p ∨ m ∈ waiting

namespace Adopting

variable {lost : Location → Prop} {models : LocationSet}

/-- Deleting a manifest takes no model unit away, as long as no file lies below it. -/
theorem delete (h : Adopting old disk lost models b) (hl : old.config.isManifest l = true)
    (hchildless : disk.Childless l) : Adopting old disk lost models (b.delete l) := by
  refine ⟨h.loading.delete l, quiet_delete h.quiet l,
    fun other u hu => h.unit_file other u (unit_of_delete hu), ?_, h.tracked⟩
  intro f text htext hfile hnot howned
  have hbefore : (b.workspace.packages.packageFor? f).isSome = true := by
    obtain ⟨root, p, hp, hbelow⟩ := PackageGraph.packageFor?_isSome_iff.mp howned
    exact PackageGraph.packageFor?_isSome_iff.mpr
      ⟨root, p, h.loading.package_of_delete hp, hbelow⟩
  refine (h.file_unit f text htext hfile hnot hbefore).imp_right fun hunit => ?_
  refine hunit.imp_right ?_
  rintro ⟨u, hu, hmodel⟩
  refine ⟨u, (unit_delete_or_erased l hu).resolve_right ?_, hmodel⟩
  -- only the manifest itself and what lies below it could be erased
  rintro ⟨d, hd, hwhy⟩
  rw [List.mem_singleton.mp hd] at hwhy
  rcases hwhy with rfl | ⟨-, hbelow⟩
  · rw [hnot] at hl
    cases hl
  · rw [hchildless f text htext] at hbelow
    cases hbelow

/-- The files below a root that is new are to be loaded. -/
theorem declaredPackage (h : Adopting old disk lost models b) (hdisk : disk.Plain)
    (hl : old.config.isManifest l = true) (text : String) :
    let next := (b.withManifest l text).declaredPackage disk l (Manifest.ofText text).toOption
    let new := next.2.filter fun f => !next.1.workspace.units.contains f
    Adopting old disk lost
      (models.addAll (new.filter fun f => !next.1.workspace.config.isManifest f)) next.1 := by
  intro next new
  have hloading : Loading old next.1 :=
    (h.loading.withManifest hl text).declaredPackage disk l text
  have hunits : ∀ other, next.1.workspace.units.get? other =
      if other = l then some (ofManifestText l text) else b.workspace.units.get? other :=
    unit_declaredPackage b disk l text
  have hmodels : ∀ {f}, f ∈ models.toList → f ∈ (models.addAll
      (new.filter fun f => !next.1.workspace.config.isManifest f)).toList :=
    fun hf => LocationSet.mem_toList_addAll.mpr (Or.inr hf)
  have hconfig : (b.withManifest l text).workspace.config = old.config := h.loading.config_eq
  exact
    { loading := hloading
      quiet := by
        exact quiet_declaredPackage (b := b.withManifest l text)
          ⟨h.quiet.buffers, h.quiet.cancelRequests, h.quiet.pending⟩ disk l _
      unit_file := by
        intro other u hu hmodel
        rw [hunits] at hu
        split at hu
        · cases hu
          cases hmodel
        · obtain ⟨hfile, hcurrent⟩ := h.unit_file other u hu hmodel
          exact ⟨hfile, hcurrent.imp_right hmodels⟩
      file_unit := by
        intro f other hother hfile hnot howned
        have hne : f ≠ l := by
          rintro rfl
          rw [hnot] at hl
          cases hl
        have htracked : (b.withManifest l text).workspace.config.isTracked f = true := by
          rw [hconfig]
          exact isTracked_of_isModelFile hfile
        -- a package owned the file before, or it is found below the root that is new
        rcases owned_or_found (b.withManifest l text) hdisk hother htracked howned with
          hbefore | hmem
        · refine (h.file_unit f other hother hfile hnot hbefore).imp_right fun hunit => ?_
          refine hunit.imp hmodels ?_
          rintro ⟨u, hu, hmodel⟩
          exact ⟨u, by rw [hunits, if_neg hne]; exact hu, hmodel⟩
        · exact Or.inr ((hloading.new_or_tracked hmem hnot).imp_left fun hnew =>
            LocationSet.mem_toList_addAll.mpr (Or.inl hnew))
      tracked := by
        intro f hf
        rcases LocationSet.mem_toList_addAll.mp hf with hnew | hbefore
        · obtain ⟨hmem, hkind⟩ := List.mem_filter.mp hnew
          rw [hloading.config_eq] at hkind
          obtain ⟨root, hscan⟩ := exists_scan_of_mem_found (b.withManifest l text)
            (List.mem_of_mem_filter hmem)
          have htracked := Workspace.isTracked_of_mem_scanned hscan
          rw [hconfig] at htracked
          exact ⟨htracked, by simpa using hkind⟩
        · exact h.tracked f hbefore }

/-- Loading a manifest keeps the model units right. -/
theorem loadedManifest (h : Adopting old disk lost models b) (hdisk : disk.Plain)
    (hl : old.config.isManifest l = true) (hchildless : disk.Childless l) :
    Adopting old disk lost (models.addAll (b.newModels disk l))
      (b.loadedManifest disk l).1 := by
  unfold newModels newFiles
  rcases b.loadedManifest_cases disk l with ⟨-, heq⟩ | ⟨-, heq⟩ | ⟨text, -, heq⟩
  · simp only [heq]
    exact h.delete hl hchildless
  · simp only [heq]
    exact h
  · rw [heq]
    exact h.declaredPackage hdisk hl text

/-- Loading all manifests of a queue keeps the model units right. -/
theorem loadedManifests (h : Adopting old disk lost models b) (hdisk : disk.Plain)
    {q : ManifestQueue} (hq : ∀ m, m ∈ q.waiting ∨ m ∈ q.unseen →
      old.config.isManifest m = true ∧ disk.Childless m) :
    ∃ last found, Build.loadedManifests disk b models q = (last, found) ∧
      Adopting old disk lost found last :=
  loadedManifests_induction_waiting (P := fun b models _ => Adopting old disk lost models b)
    (fun _ _ _ _ _ hb => hb)
    (fun _ _ _ _ hl hb => hb.loadedManifest hdisk hl.1 hl.2) hq h

end Adopting

namespace Catching

variable {waiting : List Location} {models : LocationSet}

theorem mono (h : Catching old disk waiting models b) {more : List Location}
    (hsub : waiting ⊆ more) : Catching old disk more models b where
  toAdopting := h.toAdopting
  package_declared := fun root p hp => (h.package_declared root p hp).imp_right fun hm => hsub hm
  declared_package := fun m p hp => (h.declared_package m p hp).imp_right fun hm => hsub hm

/-- A manifest that is not on the disk is deleted, and with it what it declared. -/
theorem delete (h : Catching old disk (l :: waiting) models b)
    (hl : old.config.isManifest l = true) (hextension : l.extension.isSome = true)
    (hchildless : disk.Childless l) (hmissing : disk.files.get? l = none) :
    Catching old disk waiting models (b.delete l) := by
  have hpackages : ∀ {root p}, (b.delete l).workspace.packages.packages.get? root = some p ↔
      b.workspace.packages.packages.get? root = some p ∧ p.manifest ≠ l := by
    intro root p
    have hdelete : b.delete l = b.deleteFile l := if_pos hextension
    rw [hdelete, h.loading.packages_deleteFile]
    simp [hl]
  refine ⟨h.toAdopting.delete hl hchildless, ?_, ?_⟩
  · intro root p hp
    obtain ⟨hp, hne⟩ := hpackages.mp hp
    refine (h.package_declared root p hp).imp_right fun hm => ?_
    exact (List.mem_cons.mp hm).resolve_left hne
  · intro m p hdeclares
    have hne : m ≠ l := by
      rintro rfl
      obtain ⟨text, htext, -⟩ := hdeclares
      rw [hmissing] at htext
      cases htext
    rcases h.declared_package m p hdeclares with hp | hm
    · exact Or.inl (hpackages.mpr ⟨hp, hdeclares.manifest_eq.1 ▸ hne⟩)
    · exact Or.inr ((List.mem_cons.mp hm).resolve_left hne)

/-- A manifest on the disk decides what stands in its directory. -/
theorem declaredPackage (h : Catching old disk (l :: waiting) models b) (hdisk : disk.Plain)
    (hl : old.config.isManifest l = true) {text : String}
    (htext : disk.files.get? l = some text) :
    let next := (b.withManifest l text).declaredPackage disk l (Manifest.ofText text).toOption
    let new := next.2.filter fun f => !next.1.workspace.units.contains f
    Catching old disk waiting
      (models.addAll (new.filter fun f => !next.1.workspace.config.isManifest f)) next.1 := by
  intro next new
  have hpackages : ∀ root, next.1.workspace.packages.packages.get? root =
      if l.parent = some root then (Manifest.ofText text).toOption.bind (Package.ofManifest l)
      else b.workspace.packages.packages.get? root :=
    packages_declaredPackage (b.withManifest l text) disk l text
  have hown : ∀ {p}, (Manifest.ofText text).toOption.bind (Package.ofManifest l) = some p →
      disk.Declares old.config l p :=
    fun hp => ⟨text, htext, hl, hp⟩
  refine ⟨h.toAdopting.declaredPackage hdisk hl text, ?_, ?_⟩
  · intro root p hp
    rw [hpackages] at hp
    split at hp
    · left
      rw [(hown hp).manifest_eq.1]
      exact hown hp
    · -- a package of another directory does not come from this manifest
      rename_i hne
      refine (h.package_declared root p hp).imp_right fun hm => ?_
      refine (List.mem_cons.mp hm).resolve_left fun heq => hne ?_
      rw [← heq]
      exact (h.loading.parent_manifest hp).2
  · intro m p hdeclares
    obtain ⟨-, hparent⟩ := hdeclares.manifest_eq
    rw [hpackages]
    split
    · -- the manifest that is loaded is the only one in its directory
      rename_i hl'
      obtain ⟨other, hother, hm, hp⟩ := hdeclares
      have heq : m = l := Disk.eq_of_isManifest (hdisk.isPath m other hother).isResolved
        (hdisk.isPath l text htext).isResolved hm hl hparent hl'
      subst heq
      rw [htext] at hother
      cases hother
      exact Or.inl hp
    · rename_i hne
      refine (h.declared_package m p hdeclares).imp_right fun hm => ?_
      refine (List.mem_cons.mp hm).resolve_left fun heq => hne ?_
      rw [← heq]
      exact hparent

/-- Loading a manifest takes it from those that wait. -/
theorem loadedManifest (h : Catching old disk (l :: waiting) models b) (hdisk : disk.Plain)
    (hl : old.config.isManifest l = true) (hextension : l.extension.isSome = true)
    (hchildless : disk.Childless l) :
    Catching old disk waiting (models.addAll (b.newModels disk l)) (b.loadedManifest disk l).1 := by
  unfold newModels newFiles
  rcases b.loadedManifest_cases disk l with ⟨hmissing, heq⟩ | ⟨hunreadable, -⟩ |
    ⟨text, htext, heq⟩
  · simp only [heq]
    exact h.delete hl hextension hchildless ((h.quiet.found_eq_missing_iff hdisk).mp hmissing)
  · exact absurd hunreadable (h.quiet.found_ne_unreadable hdisk l)
  · rw [heq]
    exact h.declaredPackage hdisk hl ((h.quiet.found_eq_text_iff hdisk).mp htext)

/-- When the queue is empty no manifest waits any more. -/
theorem loadedManifests (h : Catching old disk waiting models b) (hdisk : disk.Plain)
    (hextension : ∀ m, old.config.isManifest m = true → m.extension.isSome = true)
    {q : ManifestQueue} (hwaiting : q.waiting = waiting)
    (hq : ∀ m, m ∈ q.waiting ∨ m ∈ q.unseen →
      old.config.isManifest m = true ∧ disk.Childless m) :
    ∃ last found, Build.loadedManifests disk b models q = (last, found) ∧
      Catching old disk [] found last :=
  loadedManifests_induction_waiting (P := fun b models waiting => Catching old disk waiting models b)
    (fun _ _ _ _ hsub hb => hb.mono hsub)
    (fun _ _ l _ hl hb => hb.loadedManifest hdisk hl.1 (hextension l hl.1) hl.2) hq (hwaiting ▸ h)

end Catching
end Build
end ModelWorkspace
