import ModelWorkspace.Proofs.Workspace.Settled

/-!
# Builds while they load files

While a build deletes and loads files, the index only loses entries: exactly those of the
locations that are touched.  Model units are untouched units of the workspace that the
build started from, or have just been parsed.  Packages and manifests are those of that
workspace unless the build says otherwise.

Every step up to indexing keeps this.
-/

namespace ModelWorkspace

open SourceUnit

/-- The package that a manifest declares is declared, at the directory of the manifest. -/
theorem Package.isDeclared_of_bind {l : Location} {text : String} {p : Package}
    (h : (Manifest.ofText text).toOption.bind (Package.ofManifest l) = some p) :
    p.IsDeclared ∧ p.manifest = l ∧ l.parent = some p.root := by
  obtain ⟨manifest, hmanifest, hp⟩ := Option.bind_eq_some_iff.mp h
  cases htext : Manifest.ofText text with
  | error fault =>
      rw [htext] at hmanifest
      cases hmanifest
  | ok found =>
      rw [htext] at hmanifest
      cases hmanifest
      exact isDeclared_of_ofManifest htext hp

namespace Build

/-- A build that was started on a settled workspace and has loaded some files. -/
structure Loading (old : Workspace) (b : Build) : Prop where
  config_eq : b.workspace.config = old.config
  wellFormed : ∀ l u, b.workspace.units.get? l = some u → u.WellFormed old.config l
  declared : b.workspace.packages.Declared
  coherent : b.workspace.index.Coherent
  entries_eq : b.workspace.index.entries =
    old.index.entries.filter fun e => e.location ∉ b.touched.toList
  kept : ∀ l u, old.units.get? l = some u → u.isModel = true → l ∉ b.touched.toList →
    ∃ v, b.workspace.units.get? l = some v ∧ v.isModel = true
  parsed_or_old : ∀ l u, b.workspace.units.get? l = some u → u.isModel = true →
    (u.state = .parsed ∧ (l ∈ b.touched.toList ∨ b.packagesChanged = true)) ∨
      (l ∉ b.touched.toList ∧ old.units.get? l = some u)
  packages_eq : b.packagesChanged = false → b.workspace.packages = old.packages
  owned : b.packagesChanged = false → ∀ l u, b.workspace.units.get? l = some u →
    u.isModel = true → (b.workspace.packages.packageFor? l).isSome = true
  manifests : b.report.parsed = [] → ∀ l u, b.workspace.units.get? l = some u →
    u.isManifest = true → old.units.get? l = some u

namespace Loading

variable {old : Workspace} {b : Build}

theorem start (h : old.Settled) : Loading old { workspace := old } where
  config_eq := rfl
  wellFormed := h.wellFormed
  declared := h.declared
  coherent := h.coherent
  entries_eq := (List.filter_eq_self.mpr fun _ _ => rfl).symm
  kept := fun _ u hu hmodel _ => ⟨u, hu, hmodel⟩
  parsed_or_old := fun _ _ hu _ => Or.inr ⟨List.not_mem_nil, hu⟩
  packages_eq := fun _ => rfl
  owned := fun _ => h.owned
  manifests := fun _ _ _ hu _ => hu

/-- Buffers, requests to call off a parse and the rest of the report do not matter. -/
theorem congr (h : Loading old b) {other : Build}
    (hconfig : other.workspace.config = b.workspace.config)
    (hunits : other.workspace.units = b.workspace.units)
    (hindex : other.workspace.index = b.workspace.index)
    (hpackages : other.workspace.packages = b.workspace.packages)
    (htouched : other.touched = b.touched) (hchanged : other.packagesChanged = b.packagesChanged)
    (hparsed : other.report.parsed = b.report.parsed) : Loading old other := by
  obtain ⟨⟨config, units, index, packages, buffers, requests, pending⟩, report, touched,
    changed⟩ := other
  cases hconfig
  cases hunits
  cases hindex
  cases hpackages
  cases htouched
  cases hchanged
  refine ⟨h.config_eq, h.wellFormed, h.declared, h.coherent, h.entries_eq, h.kept,
    h.parsed_or_old, h.packages_eq, h.owned, fun hnone => h.manifests ?_⟩
  rw [← hparsed]
  exact hnone

/-! ## Removing files -/

theorem notMem_touched_add {s : LocationSet} {l other : Location}
    (h : other ∉ (s.add l).toList) : other ≠ l ∧ other ∉ s.toList := by
  rw [LocationSet.mem_toList_add, not_or] at h
  exact h

/-- Taking the entries of a location out of the index, and touching the location. -/
theorem entries_withoutLocation (h : Loading old b) (l : Location) :
    (b.workspace.index.withoutLocation l).entries =
      old.index.entries.filter fun e => e.location ∉ (b.touched.add l).toList := by
  rw [h.coherent.entries_withoutLocation, h.entries_eq, List.filter_filter]
  refine List.filter_congr fun e _ => ?_
  rw [← Bool.decide_and, decide_eq_decide, LocationSet.mem_toList_add, not_or]

theorem removeUnit (h : Loading old b) (l : Location) : Loading old (b.removeUnit l) := by
  have hget : ∀ {other u}, (b.workspace.units.erase l).get? other = some u →
      other ≠ l ∧ b.workspace.units.get? other = some u :=
    LocationMap.get?_erase_eq_some_iff.mp
  have hparsed : (b.removeUnit l).report.parsed = b.report.parsed := by
    unfold Build.removeUnit
    dsimp only
    split <;> rfl
  exact
    { config_eq := h.config_eq
      wellFormed := by
        intro other u hu
        exact h.wellFormed other u (hget hu).2
      declared := h.declared
      coherent := h.coherent.withoutLocation l
      entries_eq := h.entries_withoutLocation l
      kept := by
        intro other u hu hmodel htouched
        obtain ⟨hne, hnot⟩ := notMem_touched_add htouched
        obtain ⟨v, hv, hkind⟩ := h.kept other u hu hmodel hnot
        exact ⟨v, (LocationMap.get?_erase_of_ne _ hne).trans hv, hkind⟩
      parsed_or_old := by
        intro other u hu hmodel
        obtain ⟨hne, hu⟩ := hget hu
        rcases h.parsed_or_old other u hu hmodel with ⟨hstate, hwhy⟩ | ⟨hnot, hold⟩
        · refine Or.inl ⟨hstate, hwhy.imp_left fun hmem => ?_⟩
          exact LocationSet.mem_toList_add.mpr (Or.inr hmem)
        · refine Or.inr ⟨fun hmem => ?_, hold⟩
          exact (LocationSet.mem_toList_add.mp hmem).elim hne hnot
      packages_eq := h.packages_eq
      owned := by
        intro hchanged other u hu
        exact h.owned hchanged other u (hget hu).2
      manifests := by
        intro hnone other u hu
        exact h.manifests (hparsed.symm.trans hnone) other u (hget hu).2 }

theorem removeAll (h : Loading old b) (ls : List Location) :
    Loading old (ls.foldl Build.removeUnit b) :=
  removeAll_induction (fun _ l hb => hb.removeUnit l) h ls

theorem setPackages (h : Loading old b) {packages : PackageGraph} (hdeclared : packages.Declared) :
    Loading old (b.setPackages packages) where
  config_eq := h.config_eq
  wellFormed := h.wellFormed
  declared := hdeclared
  coherent := h.coherent
  entries_eq := h.entries_eq
  kept := h.kept
  parsed_or_old := fun l u hu hmodel =>
    (h.parsed_or_old l u hu hmodel).imp_left fun ⟨hstate, _⟩ => ⟨hstate, Or.inr rfl⟩
  packages_eq := fun hchanged => nomatch hchanged
  owned := fun hchanged => nomatch hchanged
  manifests := h.manifests

theorem deleteFile (h : Loading old b) (l : Location) : Loading old (b.deleteFile l) := by
  unfold Build.deleteFile
  dsimp only
  split
  · exact (h.removeUnit l).setPackages (h.declared.removeManifest l)
  · exact h.removeUnit l

theorem deleteDirectory (h : Loading old b) (l : Location) :
    Loading old (b.deleteDirectory l) := by
  unfold Build.deleteDirectory
  dsimp only
  split
  · exact h.removeAll _
  · exact (h.removeAll _).setPackages (h.declared.removeWithin l)

theorem delete (h : Loading old b) (l : Location) : Loading old (b.delete l) := by
  unfold Build.delete
  split
  · exact h.deleteFile l
  · exact h.deleteDirectory l

theorem deleteAll (h : Loading old b) (ls : List Location) :
    Loading old (ls.foldl Build.delete b) :=
  deleteAll_induction (fun _ l hb => hb.delete l) h ls

/-! ## Loading manifests -/

theorem withManifest (h : Loading old b) {l : Location} (hl : old.config.isManifest l = true)
    (text : String) : Loading old (b.withManifest l text) := by
  have hget : ∀ {other u}, (b.workspace.units.put (ofManifestText l text)).get? other = some u →
      (other = l ∧ u = ofManifestText l text) ∨ b.workspace.units.get? other = some u := by
    intro other u hu
    exact (LocationMap.get?_insert_eq_some_iff.mp hu).imp_right And.right
  have hmanifest : (ofManifestText l text).isModel = false := rfl
  exact
    { config_eq := h.config_eq
      wellFormed := by
        intro other u hu
        rcases hget hu with ⟨rfl, rfl⟩ | hu
        · refine ⟨rfl, ?_, fun hmodel => ?_, fun _ => rfl, fun _ => rfl, fun _ => rfl,
            fun _ => rfl⟩
          · rw [hmanifest, hl]
            rfl
          · rw [hmanifest] at hmodel
            cases hmodel
        · exact h.wellFormed other u hu
      declared := h.declared
      coherent := h.coherent
      entries_eq := h.entries_eq
      kept := by
        intro other u hu hmodel htouched
        obtain ⟨v, hv, hkind⟩ := h.kept other u hu hmodel htouched
        refine ⟨v, ?_, hkind⟩
        have hne : other ≠ l := by
          rintro rfl
          rw [(h.wellFormed other v hv).isManifest_eq_false hkind] at hl
          cases hl
        exact (LocationMap.get?_insert_of_ne _ _ hne).trans hv
      parsed_or_old := by
        intro other u hu hmodel
        rcases hget hu with ⟨-, rfl⟩ | hu
        · rw [hmanifest] at hmodel
          cases hmodel
        · exact h.parsed_or_old other u hu hmodel
      packages_eq := h.packages_eq
      owned := by
        intro hchanged other u hu hmodel
        rcases hget hu with ⟨-, rfl⟩ | hu
        · rw [hmanifest] at hmodel
          cases hmodel
        · exact h.owned hchanged other u hu hmodel
      manifests := by
        intro hnone
        exact absurd hnone (by simp [Build.withManifest]) }

theorem declaredPackage (h : Loading old b) (disk : Disk) (l : Location) (text : String) :
    Loading old (b.declaredPackage disk l (Manifest.ofText text).toOption).1 := by
  have hdeclares := b.declares_declaredPackage disk l (Manifest.ofText text).toOption
  generalize b.declaredPackage disk l (Manifest.ofText text).toOption = result at hdeclares ⊢
  cases hdeclares with
  | known => exact h
  | changed p _ hp => exact h.setPackages (h.declared.insert (Package.isDeclared_of_bind hp).1)
  | new p hp => exact h.setPackages (h.declared.insert (Package.isDeclared_of_bind hp).1)
  | gone => exact h.setPackages (h.declared.removeManifest l)

theorem loadedManifest (h : Loading old b) (disk : Disk) {l : Location}
    (hl : old.config.isManifest l = true) : Loading old (b.loadedManifest disk l).1 := by
  rcases b.loadedManifest_cases disk l with ⟨-, heq⟩ | ⟨-, heq⟩ | ⟨text, -, heq⟩
  · simp only [heq]
    exact h.delete l
  · simp only [heq]
    exact h
  · rw [heq]
    exact (h.withManifest hl text).declaredPackage disk l text

/-- The loop over manifests keeps manifests and model files apart. -/
theorem loadedManifests (h : Loading old b) (disk : Disk) {models : LocationSet}
    {q : ManifestQueue} (hmodels : ∀ l ∈ models.toList, old.config.isManifest l = false)
    (hq : ∀ l, l ∈ q.waiting ∨ l ∈ q.unseen → old.config.isManifest l = true) :
    ∃ last found, Build.loadedManifests disk b models q = (last, found) ∧
      Loading old last ∧ ∀ l ∈ found.toList, old.config.isManifest l = false := by
  let P := fun (b : Build) (models : LocationSet) (_ : List Location) =>
    Loading old b ∧ ∀ l ∈ models.toList, old.config.isManifest l = false
  have hstep : ∀ b models l waiting, old.config.isManifest l = true →
      P b models (l :: waiting) →
        P (b.loadedManifest disk l).1 (models.addAll (b.newModels disk l)) waiting := by
    rintro b models l waiting hl ⟨hb, hmodels⟩
    have hloaded := hb.loadedManifest disk hl
    refine ⟨hloaded, fun other hother => ?_⟩
    rcases LocationSet.mem_toList_addAll.mp hother with hnew | hold
    · have hmodel := (List.mem_filter.mp hnew).2
      rw [hloaded.config_eq] at hmodel
      simpa using hmodel
    · exact hmodels other hold
  exact loadedManifests_induction_waiting (P := P) (fun _ _ _ _ _ hb => hb) hstep hq ⟨h, hmodels⟩

end Loading
end Build
end ModelWorkspace
