import ModelWorkspace.Proofs.Workspace.Loading

/-!
# Builds that are ready to index

Behind the manifests every model unit has an owner, and if packages have changed, none of
them counts as indexed.  Loading the model files that packages own keeps this.
-/

namespace ModelWorkspace
namespace Build

open SourceUnit

/-- A build in which all model units have owners, and are parsed if packages have
changed. -/
structure Prepared (old : Workspace) (b : Build) : Prop extends Loading old b where
  allOwned : ∀ l u, b.workspace.units.get? l = some u → u.isModel = true →
    (b.workspace.packages.packageFor? l).isSome = true
  reset : b.packagesChanged = true → ∀ l u, b.workspace.units.get? l = some u →
    u.isModel = true → u.state = .parsed

variable {old : Workspace} {b : Build}

/-! ## Change of packages -/

theorem resetUnit_of_isManifest {u : SourceUnit} (h : u.isManifest = true) :
    resetUnit u = u := by
  unfold resetUnit
  refine if_neg fun hmodel => ?_
  rw [isManifest_eq_not_isModel, hmodel.1] at h
  cases h

theorem sameSource_resetUnit (u : SourceUnit) : SameSource u (resetUnit u) := by
  unfold resetUnit
  split
  · exact ⟨rfl, rfl, rfl, rfl⟩
  · exact SameSource.refl u

theorem get?_dropOrphans {l : Location} {u : SourceUnit}
    (hwell : ∀ l u, b.workspace.units.get? l = some u → u.location = l)
    (hu : b.dropOrphans.workspace.units.get? l = some u) :
    b.workspace.units.get? l = some u ∧
      (u.isModel = true → (b.workspace.packages.packageFor? l).isSome = true) := by
  unfold dropOrphans at hu
  rw [get?_removeAll] at hu
  split at hu
  · cases hu
  · -- a unit that nobody owned would be among those that are dropped
    rename_i hkept
    refine ⟨hu, fun hmodel => ?_⟩
    by_contra horphan
    apply hkept
    have hlocation := hwell l u hu
    refine List.mem_map.mpr ⟨u, List.mem_filter.mpr ⟨?_, ?_⟩, hlocation⟩
    · exact List.mem_filter.mpr ⟨LocationMap.mem_values_iff.mpr ⟨l, hu⟩, hmodel⟩
    · rw [hlocation, ← Option.not_isSome]
      simpa using horphan

/-- Model files do not stand where a manifest would. -/
theorem Loading.isManifest_of_mem_models (h : Loading old b) {p : SourceUnit → Bool}
    {l : Location} (hl : l ∈ (b.workspace.units.models.filter p).map (·.location)) :
    old.config.isManifest l = false := by
  obtain ⟨u, hu, rfl⟩ := List.mem_map.mp hl
  obtain ⟨hvalue, hmodel⟩ := List.mem_filter.mp (List.mem_of_mem_filter hu)
  obtain ⟨key, hkey⟩ := LocationMap.mem_values_iff.mp hvalue
  have hwell := h.wellFormed key u hkey
  rw [hwell.location_eq]
  exact hwell.isManifest_eq_false hmodel

theorem Loading.dropOrphans (h : Loading old b) : Loading old b.dropOrphans :=
  h.removeAll _

theorem exists_of_get?_reset {l : Location} {u : SourceUnit}
    (hu : b.reset.workspace.units.get? l = some u) :
    ∃ v, b.dropOrphans.workspace.units.get? l = some v ∧ u = resetUnit v := by
  obtain ⟨v, hv, heq⟩ := Option.map_eq_some_iff.mp ((LocationMap.get?_map _ _ _).symm.trans hu)
  exact ⟨v, hv, heq.symm⟩

/-- What has not just been parsed was validated before, and is sent back. -/
theorem Loading.parsed_reset (h : Loading old b) (hold : old.Settled) {l : Location}
    {u : SourceUnit} (hu : b.reset.workspace.units.get? l = some u) (hmodel : u.isModel = true) :
    u.state = .parsed := by
  obtain ⟨v, hv, rfl⟩ := exists_of_get?_reset hu
  rw [(sameSource_resetUnit v).isModel_eq] at hmodel
  unfold resetUnit
  rcases h.dropOrphans.parsed_or_old l v hv hmodel with ⟨hstate, -⟩ | ⟨-, hbefore⟩
  · split
    · rfl
    · exact hstate
  · have hstate := hold.validated hbefore
    rw [if_pos ⟨hmodel, by rw [hstate]; decide⟩]
    rfl

/-- A change of packages sends units back and does nothing else. -/
theorem Loading.reset (h : Loading old b) (hold : old.Settled)
    (hchanged : b.packagesChanged = true) : Loading old b.reset := by
  have hdropped := h.dropOrphans
  have hreset : b.reset.packagesChanged = true := (frame_removeAll b _).2.2.trans hchanged
  exact
    { config_eq := hdropped.config_eq
      wellFormed := by
        intro l u hu
        obtain ⟨v, hv, rfl⟩ := exists_of_get?_reset hu
        have hwell := hdropped.wellFormed l v hv
        cases hmodel : v.isModel with
        | true => exact hwell.of_sameSource (sameSource_resetUnit v) hmodel
        | false =>
            rw [resetUnit_of_isManifest (by rw [isManifest_eq_not_isModel, hmodel]; rfl)]
            exact hwell
      declared := hdropped.declared
      coherent := hdropped.coherent
      entries_eq := hdropped.entries_eq
      kept := by
        intro l u hu hmodel htouched
        obtain ⟨v, hv, hkind⟩ := hdropped.kept l u hu hmodel htouched
        refine ⟨resetUnit v, ?_, (sameSource_resetUnit v).isModel_eq.trans hkind⟩
        exact (LocationMap.get?_map _ _ _).trans (by rw [hv]; rfl)
      parsed_or_old := fun _ _ hu hmodel =>
        Or.inl ⟨h.parsed_reset hold hu hmodel, Or.inr hreset⟩
      packages_eq := fun hnot => absurd (hreset.symm.trans hnot) nofun
      owned := fun hnot => absurd (hreset.symm.trans hnot) nofun
      manifests := by
        intro hnone l u hu hmanifest
        obtain ⟨v, hv, rfl⟩ := exists_of_get?_reset hu
        rw [isManifest_eq_not_isModel, (sameSource_resetUnit v).isModel_eq,
          ← isManifest_eq_not_isModel] at hmanifest
        rw [resetUnit_of_isManifest hmanifest]
        exact hdropped.manifests hnone l v hv hmanifest }

theorem Loading.resetForPackages (h : Loading old b) (hold : old.Settled)
    (hchanged : b.packagesChanged = true) : Prepared old b.reset where
  toLoading := h.reset hold hchanged
  allOwned := by
    intro l u hu hmodel
    obtain ⟨v, hv, rfl⟩ := exists_of_get?_reset hu
    rw [(sameSource_resetUnit v).isModel_eq] at hmodel
    show (b.dropOrphans.workspace.packages.packageFor? l).isSome = true
    unfold Build.dropOrphans
    rw [(frame_removeAll b _).1]
    exact (get?_dropOrphans (fun l u hu => (h.wellFormed l u hu).location_eq) hv).2 hmodel
  reset := fun _ _ _ hu hmodel => h.parsed_reset hold hu hmodel

/-- Behind the manifests the build is prepared, whether packages have changed or not. -/
theorem Loading.prepared (h : Loading old b) (hold : old.Settled) :
    Prepared old (if b.packagesChanged then b.reset else b) := by
  cases hchanged : b.packagesChanged with
  | false =>
      refine ⟨h, h.owned hchanged, fun htrue => ?_⟩
      rw [if_neg Bool.false_ne_true, hchanged] at htrue
      cases htrue
  | true => exact h.resetForPackages hold hchanged

/-! ## Loading model files -/

namespace Prepared

theorem congr (h : Prepared old b) {other : Build}
    (hconfig : other.workspace.config = b.workspace.config)
    (hunits : other.workspace.units = b.workspace.units)
    (hindex : other.workspace.index = b.workspace.index)
    (hpackages : other.workspace.packages = b.workspace.packages)
    (htouched : other.touched = b.touched) (hchanged : other.packagesChanged = b.packagesChanged)
    (hparsed : other.report.parsed = b.report.parsed) : Prepared old other where
  toLoading := h.toLoading.congr hconfig hunits hindex hpackages htouched hchanged hparsed
  allOwned := by
    rw [hunits, hpackages]
    exact h.allOwned
  reset := by
    rw [hunits, hchanged]
    exact h.reset

theorem removeUnit (h : Prepared old b) (l : Location) : Prepared old (b.removeUnit l) where
  toLoading := h.toLoading.removeUnit l
  allOwned := by
    intro other u hu
    exact h.allOwned other u (LocationMap.get?_erase_eq_some_iff.mp hu).2
  reset := by
    intro hchanged other u hu
    exact h.reset hchanged other u (LocationMap.get?_erase_eq_some_iff.mp hu).2

theorem storeModel (h : Prepared old b) {l : Location} (hl : old.config.isManifest l = false)
    (hpackage : (b.workspace.packages.packageFor? l).isSome = true) (text : String) :
    Prepared old (b.storeModel l text (Document.ofText text)) := by
  have hget : ∀ {other u},
      (b.storeModel l text (Document.ofText text)).workspace.units.get? other = some u →
        (other = l ∧ u = ofDocument l text (Document.ofText text)) ∨
          (other ≠ l ∧ b.workspace.units.get? other = some u) :=
    LocationMap.get?_insert_eq_some_iff.mp
  have hmodel : (ofDocument l text (Document.ofText text)).isModel = true := rfl
  -- the new unit is parsed and touched, as every unit that is not an old one
  have hmember : l ∈ (b.touched.add l).toList :=
    LocationSet.mem_toList_add.mpr (Or.inl rfl)
  have howned : ∀ other u,
      (b.storeModel l text (Document.ofText text)).workspace.units.get? other = some u →
        u.isModel = true → (b.workspace.packages.packageFor? other).isSome = true := by
    intro other u hu hkind
    rcases hget hu with ⟨rfl, -⟩ | ⟨-, hu⟩
    · exact hpackage
    · exact h.allOwned other u hu hkind
  exact
    { config_eq := h.config_eq
      wellFormed := by
        intro other u hu
        rcases hget hu with ⟨rfl, rfl⟩ | ⟨-, hu⟩
        · refine ⟨rfl, ?_, fun _ => rfl, nofun, nofun, nofun, nofun⟩
          rw [hmodel, hl]
          rfl
        · exact h.wellFormed other u hu
      declared := h.declared
      coherent := h.coherent.withoutLocation l
      entries_eq := h.entries_withoutLocation l
      kept := by
        intro other u hu hkind htouched
        obtain ⟨hne, hnot⟩ := Loading.notMem_touched_add htouched
        obtain ⟨v, hv, hv'⟩ := h.kept other u hu hkind hnot
        exact ⟨v, (LocationMap.get?_insert_of_ne _ _ hne).trans hv, hv'⟩
      parsed_or_old := by
        intro other u hu hkind
        rcases hget hu with ⟨rfl, rfl⟩ | ⟨hne, hu⟩
        · exact Or.inl ⟨rfl, Or.inl hmember⟩
        · rcases h.parsed_or_old other u hu hkind with ⟨hstate, hwhy⟩ | ⟨hnot, hbefore⟩
          · refine Or.inl ⟨hstate, hwhy.imp_left fun hmem => ?_⟩
            exact LocationSet.mem_toList_add.mpr (Or.inr hmem)
          · refine Or.inr ⟨fun hmem => ?_, hbefore⟩
            exact (LocationSet.mem_toList_add.mp hmem).elim hne hnot
      packages_eq := h.packages_eq
      owned := fun _ => howned
      manifests := fun hnone => absurd hnone (by simp [Build.storeModel])
      allOwned := howned
      reset := by
        intro hchanged other u hu hkind
        rcases hget hu with ⟨-, rfl⟩ | ⟨-, hu⟩
        · rfl
        · exact h.reset hchanged other u hu hkind }

theorem loadedModel (h : Prepared old b) (disk : Disk) {l : Location}
    (hl : old.config.isManifest l = false)
    (hpackage : (b.workspace.packages.packageFor? l).isSome = true) :
    Prepared old (Build.loadedModel disk b l) ∧
      (Build.loadedModel disk b l).workspace.packages = b.workspace.packages := by
  have hbegun : Prepared old (b.beginParse l).2 := h.congr rfl rfl rfl rfl rfl rfl rfl
  rcases loadedModel_cases disk b l with ⟨-, heq⟩ | ⟨-, heq⟩ | ⟨text, -, ⟨-, heq⟩ | ⟨-, heq⟩⟩
  · rw [heq]
    exact ⟨h.removeUnit l, rfl⟩
  · rw [heq]
    exact ⟨h, rfl⟩
  · rw [heq]
    exact ⟨hbegun.congr rfl rfl rfl rfl rfl rfl rfl, rfl⟩
  · rw [heq]
    exact ⟨hbegun.storeModel hl hpackage text, rfl⟩

theorem loadedModels (h : Prepared old b) (disk : Disk) {models : LocationSet}
    (hmodels : ∀ l ∈ models.toList, old.config.isManifest l = false) :
    Prepared old (b.loadedModels disk models) := by
  -- packages stay, so all files that are to be loaded keep their owners
  have hfold : ∀ (ls : List Location) (b : Build), Prepared old b →
      (∀ l ∈ ls, old.config.isManifest l = false ∧
        (b.workspace.packages.packageFor? l).isSome = true) →
      Prepared old (ls.foldl (Build.loadedModel disk) b) := by
    intro ls
    induction ls with
    | nil => exact fun b hb _ => hb
    | cons l rest ih =>
        intro b hb hall
        obtain ⟨⟨hl, hpackage⟩, hrest⟩ := List.forall_mem_cons.mp hall
        obtain ⟨hnext, hpackages⟩ := hb.loadedModel disk hl hpackage
        refine ih _ hnext ?_
        rw [hpackages]
        exact hrest
  refine hfold _ b h fun l hl => ?_
  obtain ⟨hmem, howned⟩ := List.mem_filter.mp hl
  exact ⟨hmodels l hmem, howned⟩

end Prepared
end Build
end ModelWorkspace
