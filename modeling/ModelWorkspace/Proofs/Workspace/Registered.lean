import ModelWorkspace.Proofs.Workspace.Deletion

/-!
# Packages stand for manifests

A package stands in the graph for the manifest that declares it.  Packages are kept by
their roots and manifests by their locations, and the two are taken away in different ways:
a file takes the package that it declares, a directory takes all packages and units in it,
and a manifest that is loaded again decides what stands in its directory.  Behind every step
each manifest that is tracked and declares a package has it in the graph.

The converse has one gap.  A manifest whose name has no extension is taken for a directory
when it is gone; then its unit goes, but its package has its root outside and is left
behind.
-/

namespace ModelWorkspace

/-- Files lie at resolved locations, and aliases lead to such. -/
structure Disk.IsResolved (disk : Disk) : Prop where
  files : ∀ l text, disk.files.get? l = some text → l.IsResolved
  aliases : ∀ l target, disk.aliases.get? l = some target → target.IsResolved

theorem Disk.IsResolved.canonical {disk : Disk} (h : disk.IsResolved) {l : Location}
    (hl : l.IsResolved) : (disk.canonical l).IsResolved := by
  -- a location that cannot be cut stands for itself
  rcases disk.resolve_cases l with hplace | hsplits
  · unfold Disk.resolve at hplace
    split at hplace
    · rw [← Except.ok.inj hplace]
      exact hl
    · rename_i name target hfound
      split at hplace
      · rw [← Except.ok.inj hplace]
        exact h.aliases name target (LocationMap.get?_of_deepest? hfound).1
      · split at hplace
        · rw [← Except.ok.inj hplace]
          exact Location.isResolved_join target _
        · cases hplace
  · unfold Disk.canonical
    rw [hsplits]
    exact hl

theorem Disk.Plain.isResolved {disk : Disk} (h : disk.Plain) : disk.IsResolved where
  files := fun l text htext => (h.isPath l text htext).isResolved
  aliases := by
    rw [h.aliases_eq]
    exact fun _ _ htarget => nomatch htarget

theorem Disk.IsResolved.remove {disk : Disk} (h : disk.IsResolved) (l : Location) :
    (disk.remove l).IsResolved where
  files := by
    intro f text htext
    have hget : (disk.files.get? f).filter (fun _ => !f.isWithin l) = some text :=
      (LocationMap.get?_filter disk.files _ f).symm.trans htext
    exact h.files f text (Option.eq_some_of_filter_eq_some hget)
  aliases := h.aliases

namespace Workspace

/-- Files and what an operation calls changed lie at resolved locations. -/
def Operation.IsResolved (operation : Operation) : Prop :=
  ∀ disk given, operation.request? = some (disk, given) →
    disk.IsResolved ∧ ∀ l ∈ given, l.IsResolved

/-- A manifest that is tracked declares a package. -/
def Declares (ws : Workspace) (m : Location) (p : Package) : Prop :=
  ∃ u manifest, ws.unit? m = some u ∧ u.isManifest = true ∧
    Manifest.ofText u.text = .ok manifest ∧ Package.ofManifest m manifest = some p

/-- The text of the unit at a location declares a package. -/
def Yields (ws : Workspace) (m : Location) (p : Package) : Prop :=
  ∃ u, ws.units.get? m = some u ∧
    (Manifest.ofText u.text).toOption.bind (Package.ofManifest m) = some p

/-- Manifests and packages stand for each other, apart from packages whose manifests have
been taken for directories. -/
structure Registered (ws : Workspace) : Prop where
  located : ∀ m u, ws.units.get? m = some u → ws.config.isManifest m = true → m.IsResolved
  package_of_manifest : ∀ m p, ws.config.isManifest m = true → ws.Yields m p →
    ws.packages.packages.get? p.root = some p
  manifest_of_package : ∀ root p, ws.packages.packages.get? root = some p →
    ws.config.isManifest p.manifest = true ∧ p.manifest.IsResolved ∧
      (ws.Yields p.manifest p ∨
        p.manifest.extension = none ∧ ws.units.get? p.manifest = none)
  not_pending : ∀ m, ws.config.isManifest m = true → ws.pending.get? m = none

namespace Registered

variable {ws other : Workspace}

theorem ofConfig (config : WorkspaceConfig) : (Workspace.ofConfig config).Registered where
  located := fun _ _ hu => nomatch hu
  package_of_manifest := fun _ _ _ ⟨_, hu, _⟩ => nomatch hu
  manifest_of_package := fun _ _ hp => nomatch hp
  not_pending := fun _ _ => rfl

/-- Only manifests matter, and of them only the texts. -/
theorem congr (h : ws.Registered) (hconfig : other.config = ws.config)
    (hpackages : other.packages = ws.packages)
    (hunits : ∀ m, ws.config.isManifest m = true →
      ∃ f : SourceUnit → SourceUnit, (∀ u, SourceUnit.SameSource u (f u)) ∧
        other.units.get? m = (ws.units.get? m).map f)
    (hpending : ∀ m, ws.config.isManifest m = true → other.pending.get? m = none) :
    other.Registered := by
  have hyields : ∀ {m p}, ws.config.isManifest m = true → (other.Yields m p ↔ ws.Yields m p) := by
    intro m p hm
    obtain ⟨f, hf, hget⟩ := hunits m hm
    unfold Yields
    rw [hget]
    constructor
    · rintro ⟨u, hu, hp⟩
      obtain ⟨v, hv, rfl⟩ := Option.map_eq_some_iff.mp hu
      exact ⟨v, hv, (hf v).text_eq ▸ hp⟩
    · rintro ⟨v, hv, hp⟩
      exact ⟨f v, by rw [hv]; rfl, (hf v).text_eq.symm ▸ hp⟩
  exact
    { located := by
        intro m u hu hm
        rw [hconfig] at hm
        obtain ⟨f, -, hget⟩ := hunits m hm
        rw [hget] at hu
        obtain ⟨v, hv, -⟩ := Option.map_eq_some_iff.mp hu
        exact h.located m v hv hm
      package_of_manifest := by
        intro m p hm hp
        rw [hconfig] at hm
        rw [hpackages]
        exact h.package_of_manifest m p hm ((hyields hm).mp hp)
      manifest_of_package := by
        intro root p hp
        rw [hpackages] at hp
        obtain ⟨hm, hlocated, hwhy⟩ := h.manifest_of_package root p hp
        rw [hconfig]
        refine ⟨hm, hlocated, hwhy.imp (hyields hm).mpr fun ⟨hextension, hnone⟩ => ⟨hextension, ?_⟩⟩
        obtain ⟨f, -, hget⟩ := hunits p.manifest hm
        rw [hget, hnone]
        rfl
      not_pending := by
        intro m hm
        rw [hconfig] at hm
        exact hpending m hm }

end Registered
end Workspace

namespace Build

variable {old : Workspace} {b : Build} {disk : Disk}

/-! ## Deletions -/

namespace Loading

/-- Deleting a location keeps manifests and packages in step. -/
theorem registered_delete (h : Loading old b) (hb : b.workspace.Registered) (l : Location) :
    (b.delete l).workspace.Registered := by
  have hconfig : (b.delete l).workspace.config = b.workspace.config :=
    (h.delete l).config_eq.trans h.config_eq.symm
  exact
    { located := by
        intro m u hu hm
        rw [hconfig] at hm
        exact hb.located m u (unit_of_delete hu) hm
      package_of_manifest := by
        rintro m p hm ⟨u, hu, hp⟩
        rw [hconfig] at hm
        obtain ⟨hu, hne, hwithin⟩ := (unit_delete_iff b l).mp hu
        obtain ⟨-, hmanifest, hparent⟩ := Package.isDeclared_of_bind hp
        refine (h.package_delete_iff l).mpr
          ⟨hb.package_of_manifest m p hm ⟨u, hu, hp⟩, fun _ hown => ?_, fun hextension => ?_⟩
        · exact hne (hmanifest.symm.trans hown.2)
        · -- a manifest lies in every directory that its package lies in
          refine Bool.eq_false_of_not_eq_true fun hroot => ?_
          have hin := Location.isWithin_of_isBelow (Location.isBelow_of_parent hparent) hroot
          rw [hwithin hextension] at hin
          cases hin
      manifest_of_package := by
        intro root p hp
        obtain ⟨hp, hfile, hdirectory⟩ := (h.package_delete_iff l).mp hp
        obtain ⟨hm, hlocated, hwhy⟩ := hb.manifest_of_package root p hp
        rw [hconfig]
        refine ⟨hm, hlocated, ?_⟩
        rcases hwhy with ⟨u, hu, hyields⟩ | ⟨hextension, hnone⟩
        · by_cases hown : p.manifest = l
          · -- the manifest itself is taken for a directory
            have hgone : (b.delete l).workspace.units.get? p.manifest = none := by
              refine Option.eq_none_iff_forall_ne_some.mpr fun v hv => ?_
              exact ((unit_delete_iff b l).mp hv).2.1 hown
            refine Or.inr ⟨?_, hgone⟩
            cases hextension : l.extension with
            | none => rw [hown, hextension]
            | some extension =>
                refine absurd ⟨?_, hown⟩ (hfile (by rw [hextension]; rfl))
                rw [← h.config_eq, ← hown]
                exact hm
          · refine Or.inl ⟨u, (unit_delete_iff b l).mpr ⟨hu, hown, fun hextension => ?_⟩, hyields⟩
            refine Bool.eq_false_of_not_eq_true fun hwithin => ?_
            have hbelow := (Location.isWithin_iff_eq_or_isBelow.mp hwithin).resolve_left hown
            have hroot := Location.isWithin_of_parent (h.parent_manifest hp).2 hbelow
            rw [hdirectory hextension] at hroot
            cases hroot
        · refine Or.inr ⟨hextension, Option.eq_none_iff_forall_ne_some.mpr fun v hv => ?_⟩
          rw [unit_of_delete hv] at hnone
          cases hnone
      not_pending := by
        intro m hm
        rw [hconfig] at hm
        exact pending_delete (hb.not_pending m hm) l }

theorem registered_deleteAll (h : Loading old b) (hb : b.workspace.Registered)
    (ls : List Location) : (ls.foldl Build.delete b).workspace.Registered :=
  (deleteAll_induction (Q := fun b => Loading old b ∧ b.workspace.Registered)
    (fun _ l hb => ⟨hb.1.delete l, hb.1.registered_delete hb.2 l⟩) ⟨h, hb⟩ ls).2

end Loading

/-! ## Manifests -/

/-- What a manifest declares is of no concern to what is pending and to the buffers. -/
theorem frame_declaredPackage (b : Build) (disk : Disk) (l : Location) (m : Option Manifest) :
    (b.declaredPackage disk l m).1.workspace.config = b.workspace.config ∧
      (b.declaredPackage disk l m).1.workspace.pending = b.workspace.pending ∧
      (b.declaredPackage disk l m).1.workspace.buffers = b.workspace.buffers := by
  let Q := fun next : Build => next.workspace.config = b.workspace.config ∧
    next.workspace.pending = b.workspace.pending ∧
      next.workspace.buffers = b.workspace.buffers
  exact declaredPackage_induction (Q := Q) ⟨rfl, rfl, rfl⟩ (fun _ => ⟨rfl, rfl, rfl⟩) disk l m

/-- A manifest with a text decides what stands in its directory. -/
theorem registered_declaredPackage (hload : Loading old b) (hb : b.workspace.Registered)
    (disk : Disk) {l : Location} (hl : old.config.isManifest l = true) (hlocated : l.IsResolved)
    (text : String) :
    ((b.withManifest l text).declaredPackage disk l
      (Manifest.ofText text).toOption).1.workspace.Registered := by
  obtain ⟨hconfig, hpending, -⟩ :=
    frame_declaredPackage (b.withManifest l text) disk l (Manifest.ofText text).toOption
  have hget := unit_declaredPackage b disk l text
  have hpackages := packages_declaredPackage (b.withManifest l text) disk l text
  generalize ((b.withManifest l text).declaredPackage disk l
    (Manifest.ofText text).toOption).1.workspace = next at hconfig hpending hget hpackages ⊢
  change next.config = b.workspace.config at hconfig
  change next.pending = b.workspace.pending at hpending
  have hmanifest : b.workspace.config.isManifest l = true := by
    rw [hload.config_eq]
    exact hl
  exact
    { located := by
        intro m u hu hm
        rw [hget] at hu
        rw [hconfig] at hm
        split at hu
        · rename_i heq
          exact heq ▸ hlocated
        · exact hb.located m u hu hm
      package_of_manifest := by
        rintro m p hm ⟨u, hu, hp⟩
        rw [hget] at hu
        rw [hconfig] at hm
        rw [hpackages]
        obtain ⟨-, -, hparent⟩ := Package.isDeclared_of_bind hp
        split at hu
        · rename_i heq
          subst heq
          cases hu
          rw [if_pos hparent]
          exact hp
        · -- another manifest stands in another directory
          rename_i hne
          rw [if_neg fun hl' => hne ?_]
          · exact hb.package_of_manifest m p hm ⟨u, hu, hp⟩
          · exact Disk.eq_of_isManifest (hb.located m u hu hm) hlocated hm hmanifest hparent hl'
      manifest_of_package := by
        intro root p hp
        rw [hpackages] at hp
        rw [hconfig]
        split at hp
        · obtain ⟨-, hown, -⟩ := Package.isDeclared_of_bind hp
          rw [hown]
          refine ⟨hmanifest, hlocated, Or.inl ⟨_, (hget l).trans (if_pos rfl), hp⟩⟩
        · -- a package of another directory does not come from this manifest
          rename_i hroot
          have hne : p.manifest ≠ l := by
            intro heq
            rw [← heq] at hroot
            exact hroot (hload.parent_manifest hp).2
          obtain ⟨hm, hresolved, hwhy⟩ := hb.manifest_of_package root p hp
          have hsame := (hget p.manifest).trans (if_neg hne)
          refine ⟨hm, hresolved, hwhy.imp ?_ fun ⟨hextension, hnone⟩ => ⟨hextension, ?_⟩⟩
          · rintro ⟨u, hu, hyields⟩
            exact ⟨u, hsame.trans hu, hyields⟩
          · exact hsame.trans hnone
      not_pending := by
        intro m hm
        rw [hconfig] at hm
        rw [hpending]
        exact hb.not_pending m hm }

/-- Loading a manifest keeps manifests and packages in step. -/
theorem registered_loadedManifest (hload : Loading old b) (hb : b.workspace.Registered)
    (disk : Disk) {l : Location} (hl : old.config.isManifest l = true)
    (hlocated : l.IsResolved) : (b.loadedManifest disk l).1.workspace.Registered := by
  rcases b.loadedManifest_cases disk l with ⟨-, heq⟩ | ⟨-, heq⟩ | ⟨text, -, heq⟩
  · simp only [heq]
    exact hload.registered_delete hb l
  · simp only [heq]
    exact hb
  · rw [heq]
    exact registered_declaredPackage hload hb disk hl hlocated text

/-! ## Model files -/

/-- Loading a model file leaves packages and other files alone. -/
theorem frame_loadedModel (disk : Disk) (b : Build) (l : Location) :
    (loadedModel disk b l).workspace.config = b.workspace.config ∧
      (loadedModel disk b l).workspace.packages = b.workspace.packages ∧
      ∀ other, other ≠ l →
        (loadedModel disk b l).workspace.units.get? other = b.workspace.units.get? other ∧
          (loadedModel disk b l).workspace.pending.get? other = b.workspace.pending.get? other := by
  rcases loadedModel_cases disk b l with ⟨-, heq⟩ | ⟨-, heq⟩ | ⟨text, -, ⟨-, heq⟩ | ⟨-, heq⟩⟩
  · rw [heq]
    exact ⟨rfl, rfl, fun other hne => ⟨LocationMap.get?_erase_of_ne _ hne,
      LocationMap.get?_erase_of_ne _ hne⟩⟩
  · rw [heq]
    exact ⟨rfl, rfl, fun _ _ => ⟨rfl, rfl⟩⟩
  · rw [heq]
    exact ⟨rfl, rfl, fun other hne => ⟨rfl, LocationMap.get?_insert_of_ne _ _ hne⟩⟩
  · rw [heq]
    exact ⟨rfl, rfl, fun other hne => ⟨LocationMap.get?_insert_of_ne _ _ hne, rfl⟩⟩

theorem frame_loadedModels (disk : Disk) (b : Build) (ls : List Location) :
    (ls.foldl (loadedModel disk) b).workspace.config = b.workspace.config ∧
      (ls.foldl (loadedModel disk) b).workspace.packages = b.workspace.packages ∧
      ∀ other, other ∉ ls →
        (ls.foldl (loadedModel disk) b).workspace.units.get? other =
            b.workspace.units.get? other ∧
          (ls.foldl (loadedModel disk) b).workspace.pending.get? other =
            b.workspace.pending.get? other := by
  induction ls generalizing b with
  | nil => exact ⟨rfl, rfl, fun _ _ => ⟨rfl, rfl⟩⟩
  | cons l rest ih =>
      obtain ⟨hconfig, hpackages, hothers⟩ := frame_loadedModel disk b l
      obtain ⟨hconfig', hpackages', hothers'⟩ := ih (loadedModel disk b l)
      refine ⟨hconfig'.trans hconfig, hpackages'.trans hpackages, fun other hnot => ?_⟩
      rw [List.mem_cons, not_or] at hnot
      obtain ⟨hunit, hpending⟩ := hothers other hnot.1
      obtain ⟨hunit', hpending'⟩ := hothers' other hnot.2
      exact ⟨hunit'.trans hunit, hpending'.trans hpending⟩

/-- A change of packages leaves manifests alone. -/
theorem Loading.get?_reset_of_isManifest (h : Loading old b) {m : Location}
    (hm : old.config.isManifest m = true) :
    b.reset.workspace.units.get? m = (b.workspace.units.get? m).map resetUnit := by
  refine (LocationMap.get?_map _ _ _).trans ?_
  unfold Build.dropOrphans
  rw [get?_removeAll, if_neg]
  intro hmem
  rw [h.isManifest_of_mem_models hmem] at hm
  cases hm

/-- Resetting what a change of packages concerns leaves manifests and packages alone. -/
theorem registered_reset (h : Loading old b) (hb : b.workspace.Registered) :
    b.reset.workspace.Registered := by
  obtain ⟨hpackages, hconfig, -⟩ := frame_removeAll b
    ((b.workspace.units.models.filter fun u =>
      (b.workspace.packages.packageFor? u.location).isNone).map (·.location))
  refine hb.congr hconfig hpackages (fun m hm => ?_) fun m hm => ?_
  · exact ⟨resetUnit, sameSource_resetUnit, h.get?_reset_of_isManifest (h.config_eq ▸ hm)⟩
  · refine removeAll_induction (Q := fun b => b.workspace.pending.get? m = none)
      (fun b l hnone => ?_) (hb.not_pending m hm) _
    refine (LocationMap.get?_erase _ l m).trans ?_
    rw [hnone, ite_self]

/-- Loading model files leaves manifests and packages alone. -/
theorem registered_loadedModels (hb : b.workspace.Registered) (disk : Disk) {ls : List Location}
    (hls : ∀ l ∈ ls, b.workspace.config.isManifest l = false) :
    (ls.foldl (loadedModel disk) b).workspace.Registered := by
  obtain ⟨hconfig, hpackages, hothers⟩ := frame_loadedModels disk b ls
  have hnot : ∀ m, b.workspace.config.isManifest m = true → m ∉ ls := by
    intro m hm hmem
    rw [hls m hmem] at hm
    cases hm
  refine hb.congr hconfig hpackages (fun m hm => ?_) fun m hm => ?_
  · refine ⟨id, SourceUnit.SameSource.refl, ?_⟩
    rw [(hothers m (hnot m hm)).1, Option.map_id]
    rfl
  · rw [(hothers m (hnot m hm)).2]
    exact hb.not_pending m hm

/-- The stages behind the manifests leave these and the packages alone. -/
theorem registered_finished (h : Loading old b) (hb : b.workspace.Registered) (disk : Disk)
    {models : LocationSet} (hmodels : ∀ l ∈ models.toList, old.config.isManifest l = false) :
    (b.finished disk models).workspace.Registered := by
  have hstart : (if b.packagesChanged then b.reset else b).workspace.Registered := by
    split
    · exact registered_reset h hb
    · exact hb
  have hloaded : (b.loaded disk models).workspace.Registered := by
    refine registered_loadedModels hstart disk fun l hl => ?_
    have hconfig : (if b.packagesChanged then b.reset else b).workspace.config = old.config := by
      split
      · exact (frame_removeAll b _).2.1.trans h.config_eq
      · exact h.config_eq
    rw [hconfig]
    exact hmodels l (List.mem_of_mem_filter hl)
  obtain ⟨hconfig, hpackages, -⟩ := frame_finished b disk models
  refine hloaded.congr hconfig hpackages (fun m _ => get?_finished b disk models m) fun m hm => ?_
  have hpending : (b.finished disk models).workspace.pending =
      (b.loaded disk models).workspace.pending := by
    obtain ⟨units, heq⟩ := b.exists_finished_eq disk models
    rw [heq]
    rfl
  rw [hpending]
  exact hloaded.not_pending m hm

/-- A manifest that is not there behind the manifests is not there in the end. -/
theorem Loading.get?_finished_eq_none (h : Loading old b) (disk : Disk)
    {models : LocationSet} (hmodels : ∀ l ∈ models.toList, old.config.isManifest l = false)
    {m : Location} (hm : old.config.isManifest m = true)
    (hnone : b.workspace.units.get? m = none) :
    (b.finished disk models).workspace.units.get? m = none := by
  have hstart : (if b.packagesChanged then b.reset else b).workspace.units.get? m = none := by
    split
    · rw [h.get?_reset_of_isManifest hm, hnone]
      rfl
    · exact hnone
  have hloaded : (b.loaded disk models).workspace.units.get? m = none := by
    obtain ⟨-, -, hothers⟩ := frame_loadedModels disk (if b.packagesChanged then b.reset else b)
      (models.toList.filter fun l =>
        ((if b.packagesChanged then b.reset else b).workspace.packages.packageFor? l).isSome)
    refine (hothers m fun hmem => ?_).1.trans hstart
    have hmodel := hmodels m (List.mem_of_mem_filter hmem)
    rw [hm] at hmodel
    cases hmodel
  obtain ⟨f, -, hget⟩ := get?_finished b disk models m
  rw [hget, hloaded]
  rfl

/-! ## The queue -/

theorem isResolved_of_mem_disk (h : disk.IsResolved) {l : Location}
    (hl : l ∈ disk.files.keys.map disk.canonical) : l.IsResolved := by
  obtain ⟨file, hfile, rfl⟩ := List.mem_map.mp hl
  obtain ⟨text, htext⟩ := LocationMap.mem_keys_iff.mp hfile
  exact h.canonical (h.files file text htext)

/-- Manifests that may be loaded are at resolved locations. -/
theorem isResolved_of_mem_queue (hb : b.workspace.Registered) (hdisk : disk.IsResolved)
    {changed : List Location} (hchanged : ∀ l ∈ changed, l.IsResolved) {m : Location}
    (hm : m ∈ (b.queue disk changed).waiting ∨ m ∈ (b.queue disk changed).unseen) :
    m.IsResolved := by
  rcases hm with hm | hm
  · obtain ⟨hrequested, hmanifest⟩ := List.mem_filter.mp (List.mem_reverse.mp hm)
    rcases LocationSet.mem_toList_addAll.mp hrequested with hfile | hpending
    · obtain ⟨c, hc, rfl⟩ := List.mem_map.mp (Disk.mem_of_mem_reached hfile)
      rcases List.mem_append.mp hc with hc | hc
      · exact isResolved_of_mem_disk hdisk (List.mem_map_of_mem hc)
      · exact hdisk.canonical (hchanged c hc)
    · -- no manifest is pending
      obtain ⟨value, hvalue⟩ := LocationMap.mem_keys_iff.mp hpending
      have hnone := hb.not_pending m hmanifest
      rw [show b.workspace.pending.get? m = some value from hvalue] at hnone
      cases hnone
  · exact isResolved_of_mem_disk hdisk
      (LocationSet.mem_toList_ofList.mp (List.mem_of_mem_filter hm))

end Build
end ModelWorkspace
