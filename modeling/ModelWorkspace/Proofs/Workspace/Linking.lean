import ModelWorkspace.Proofs.Link.Locality
import ModelWorkspace.Proofs.Workspace.Indexing

/-!
# Linking in a build

Behind linking the links and diagnostics of every model unit are those that the index
and the packages give.  Of units that are linked this is so by definition.  A unit that is
not linked again is in a package that is not affected: then no touched location is in a
package which it sees, and what it sees of the index has stayed as it was.
-/

namespace ModelWorkspace
namespace Build

open SourceUnit

variable {old : Workspace} {b : Build} {l : Location} {u : SourceUnit}

/-! ## Affected packages -/

theorem mem_owners {packages : PackageGraph} {touched : LocationSet} {id : String}
    (hl : l ∈ touched.toList) (hid : (packages.packageFor? l).map (·.id) = some id) :
    id ∈ owners packages touched :=
  List.mem_filterMap.mpr ⟨l, hl, hid⟩

/-- A package that is not affected sees no package that has changed. -/
theorem notMem_of_notMem_seeing {packages : PackageGraph} {scope : DependencyScope}
    {changed : List String} {p : Package} (hp : p ∈ packages.toList)
    (hnot : p.id ∉ seeing packages scope changed) {id : String}
    (hid : id ∈ p.id :: (packages.visibleFrom p scope).map (·.id)) : id ∉ changed := by
  intro hchanged
  refine hnot (List.mem_map.mpr ⟨p, List.mem_filter.mpr ⟨hp, ?_⟩, rfl⟩)
  rw [Bool.or_eq_true]
  rcases List.mem_cons.mp hid with rfl | hid
  · exact Or.inl (List.contains_iff_mem.mpr hchanged)
  · obtain ⟨q, hq, rfl⟩ := List.mem_map.mp hid
    exact Or.inr (List.any_eq_true.mpr ⟨q, hq, List.contains_iff_mem.mpr hchanged⟩)

namespace Prepared

/-- An entry behind indexing is in the package that owns its unit. -/
theorem package_of_mem_indexBehind (h : Prepared old b) (hold : old.Settled) {e : IndexEntry}
    (he : e ∈ b.indexBehind.entries) :
    (b.workspace.packages.packageFor? e.location).map (·.id) = some e.package := by
  obtain ⟨u, hu, hmodel⟩ := h.tracked_indexBehind hold he
  obtain ⟨taken, hentries⟩ := h.entriesIn_indexBehind hold hu hmodel
  exact ((h.wellFormed _ u hu).of_mem_entriesIn hmodel h.toLoading.entries_indexBehind.1
    hentries he rfl).1

/-- A unit whose package is not affected sees the same of the index as before. -/
theorem sameView (h : Prepared old b) (hold : old.Settled)
    (hchanged : b.packagesChanged = false) {p : Package}
    (hp : b.workspace.packages.packageFor? l = some p) {ids : List String}
    (hids : ids = Linker.namespacesFrom
      ⟨old.index, b.workspace.packages, old.config.dependencyScope⟩ p)
    (hnot : ∀ id ∈ ids, id ∉ owners b.workspace.packages b.touched) :
    Index.SameView old.index b.indexBehind ids l := by
  obtain ⟨hcoherent, hentries⟩ := h.toLoading.entries_indexBehind
  have hpackages := h.packages_eq hchanged
  have hbefore : ∀ e ∈ old.index.entries,
      (b.workspace.packages.packageFor? e.location).map (·.id) = some e.package := by
    intro e he
    obtain ⟨-, -, -, -, hpackage⟩ := hold.entry he
    rw [hpackages]
    exact hpackage
  have hown : ∀ e : IndexEntry,
      (b.workspace.packages.packageFor? e.location).map (·.id) = some e.package →
        e.location = l → e.package = p.id := by
    intro e hpackage hl
    rw [hl, hp] at hpackage
    exact (Option.some.inj hpackage).symm
  have hpackageId : ∀ e : IndexEntry,
      (b.workspace.packages.packageFor? e.location).map (·.id) = some e.package →
        Name.IsPackageId e.package := by
    intro e hpackage
    obtain ⟨q, hq, hid⟩ := Option.map_eq_some_iff.mp hpackage
    rw [← hid]
    exact h.declared.isPackageId q (PackageGraph.mem_toList_of_packageFor? hq)
  -- the entries of touched locations are in packages that the unit does not see
  have htouched : ∀ e : IndexEntry, e.location ∈ b.touched.toList →
      (b.workspace.packages.packageFor? e.location).map (·.id) = some e.package →
        e.package ∉ ids :=
    fun e hl hpackage hmem => hnot _ hmem (mem_owners hl hpackage)
  subst hids
  refine ⟨Linker.confined_of_location hold.coherent (fun e he => hpackageId e (hbefore e he))
      (fun e he => hown e (hbefore e he)),
    Linker.confined_of_location (i := b.indexBehind) hcoherent
      (fun e he => hpackageId e (h.package_of_mem_indexBehind hold he))
      (fun e he => hown e (h.package_of_mem_indexBehind hold he)), ?_⟩
  unfold Index.visible
  rw [hentries, List.filter_append, h.toLoading.entries_clearedIndex.2, List.filter_filter]
  -- what indexing adds belongs to touched locations
  have hnew : b.readyEntries.filter (fun e => e.package ∈ Linker.namespacesFrom
      ⟨old.index, b.workspace.packages, old.config.dependencyScope⟩ p) = [] := by
    rw [List.filter_eq_nil_iff]
    intro e he hmem
    obtain ⟨v, hv, hready, -⟩ := h.toLoading.exists_of_mem_readyEntries he
    refine htouched e (h.touched_of_ready hold hchanged hv hready) ?_ (of_decide_eq_true hmem)
    refine h.package_of_mem_indexBehind hold ?_
    rw [hentries]
    exact List.mem_append_right _ he
  rw [hnew, List.append_nil]
  -- and so did what it has taken away
  refine List.filter_congr fun e he => ?_
  rw [← Bool.decide_and, decide_eq_decide]
  refine ⟨fun hmem => ⟨hmem, fun hl => htouched e hl (hbefore e he) hmem, fun hl => ?_⟩,
    fun hboth => hboth.1⟩
  obtain ⟨v, hv, hready⟩ := h.toLoading.mem_readyLocations_iff.mp hl
  exact htouched e (h.touched_of_ready hold hchanged hv hready) (hbefore e he) hmem

end Prepared

/-! ## Links -/

/-- What references are resolved in behind indexing. -/
def linkerBehind (b : Build) : Linker :=
  ⟨b.indexBehind, b.workspace.packages, b.workspace.config.dependencyScope⟩

/-- A unit behind indexing and linking. -/
def unitBehind (b : Build) (u : SourceUnit) : SourceUnit :=
  b.indexed.linkedUnit (indexedUnit u)

theorem get?_linked (b : Build) (l : Location) :
    b.indexed.linked.workspace.units.get? l =
      (b.workspace.units.get? l).map b.unitBehind := by
  show ((b.workspace.units.map fun _ => indexedUnit).map
    fun _ => b.indexed.linkedUnit).get? l = _
  rw [LocationMap.get?_map, LocationMap.get?_map, Option.map_map]
  rfl

theorem unitBehind_of_isManifest (h : u.isManifest = true) : b.unitBehind u = u := by
  have hmodel : u.isModel = false := by
    rw [isManifest_eq_not_isModel] at h
    simpa using h
  have hindexed : indexedUnit u = u := by
    unfold indexedUnit isReady
    rw [hmodel]
    rfl
  unfold unitBehind linkedUnit needsLink
  rw [hindexed, hmodel]
  rfl

theorem sameSource_unitBehind (b : Build) (u : SourceUnit) : SameSource u (b.unitBehind u) := by
  have hindexed : SameSource u (indexedUnit u) := by
    unfold indexedUnit
    split
    · exact ⟨rfl, rfl, rfl, rfl⟩
    · exact SameSource.refl u
  have hlinked : SameSource (indexedUnit u) (b.unitBehind u) := by
    unfold unitBehind linkedUnit
    split
    · exact ⟨rfl, rfl, rfl, rfl⟩
    · exact SameSource.refl _
  exact hindexed.trans hlinked

/-- What is indexed in a build has to be linked. -/
theorem needsLink_of_ready (b : Build) (hready : isReady u = true) :
    b.indexed.needsLink b.indexed.affected (indexedUnit u) = true := by
  have hindexed : indexedUnit u = { u with state := .indexed } := if_pos hready
  rw [hindexed]
  unfold needsLink
  rw [Bool.and_eq_true_iff]
  exact ⟨(isReady_eq_true_iff.mp hready).1, rfl⟩

/-- A unit that was indexed in this build is linked. -/
theorem linkedBy_unitBehind_of_ready (hready : isReady u = true) :
    (b.unitBehind u).linkedBy b.linkerBehind = b.unitBehind u := by
  have hlinked : b.unitBehind u = (indexedUnit u).linkedBy b.linkerBehind :=
    if_pos (b.needsLink_of_ready hready)
  rw [hlinked]
  rfl

/-- A unit whose package is not affected keeps its links, and they are right. -/
theorem Prepared.linkedBy_unitBehind_of_old (h : Prepared old b) (hold : old.Settled)
    (hchanged : b.packagesChanged = false) (hready : isReady u = false)
    (hbefore : old.units.get? l = some u) (hmodel : u.isModel = true) :
    (b.unitBehind u).linkedBy b.linkerBehind = b.unitBehind u := by
  have hindexed : indexedUnit u = u := if_neg (by rw [hready]; exact Bool.false_ne_true)
  unfold unitBehind linkedUnit
  rw [hindexed]
  split
  · rfl
  · rename_i hneeds
    have hpackages := h.packages_eq hchanged
    have hlocation := (hold.wellFormed l u hbefore).location_eq
    obtain ⟨p, hp⟩ := Option.isSome_iff_exists.mp (hold.owned l u hbefore hmodel)
    rw [← hpackages] at hp
    -- the unit has gone through all states, so only its package could ask for a new link
    have hnot : p.id ∉ seeing b.workspace.packages old.config.dependencyScope
        (owners b.workspace.packages b.touched) := by
      intro hmem
      apply hneeds
      have haffected : b.indexed.affected = seeing b.workspace.packages
          old.config.dependencyScope (owners b.workspace.packages b.touched) := by
        unfold affected
        rw [← h.config_eq]
        exact if_neg (by rw [show b.indexed.packagesChanged = false from hchanged]
                         exact Bool.false_ne_true)
      unfold needsLink
      rw [hmodel, hold.validated hbefore, hlocation, haffected]
      show (b.packagesChanged ||
        (b.workspace.packages.packageFor? l).any fun q => _) = true
      rw [hp, Bool.or_eq_true]
      exact Or.inr (List.contains_iff_mem.mpr hmem)
    have hview := h.sameView hold hchanged hp rfl fun id hid =>
      notMem_of_notMem_seeing (PackageGraph.mem_toList_of_packageFor? hp) hnot hid
    -- links depend on nothing but what the package sees
    have hlink : ∀ root, Linker.link old.linker l root = Linker.link b.linkerBehind l root := by
      intro root
      have hsame := (Linker.link_eq_of_sameView h.declared.isPackageId hp hview root).1
      unfold Workspace.linker linkerBehind
      rw [← hpackages, h.config_eq]
      exact hsame
    have hdocument : old.linker.linkDocument l u.document.root =
        b.linkerBehind.linkDocument l u.document.root := by
      cases u.document.root with
      | none => rfl
      | some root => exact hlink root
    have hsame : u.linkedBy b.linkerBehind = u.linkedBy old.linker := by
      unfold linkedBy
      rw [hlocation, hdocument]
    rw [hsame]
    exact hold.linked l u hbefore hmodel

/-- Behind linking nothing about the model files is stale. -/
theorem Prepared.modelsSettled (h : Prepared old b) (hold : old.Settled) :
    b.indexed.linked.workspace.ModelsSettled := by
  have hget : ∀ {l v}, b.indexed.linked.workspace.units.get? l = some v →
      ∃ u, b.workspace.units.get? l = some u ∧ b.unitBehind u = v := by
    intro l v hv
    rw [get?_linked] at hv
    exact Option.map_eq_some_iff.mp hv
  have hmodel_eq : ∀ u, (b.unitBehind u).isModel = u.isModel :=
    fun u => (sameSource_unitBehind b u).isModel_eq
  exact
    { wellFormed := by
        intro l v hv
        obtain ⟨u, hu, rfl⟩ := hget hv
        have hwell := h.wellFormed l u hu
        rw [← h.config_eq] at hwell
        cases hmodel : u.isModel with
        | true => exact hwell.of_sameSource (sameSource_unitBehind b u) hmodel
        | false =>
            rw [unitBehind_of_isManifest (by rw [isManifest_eq_not_isModel, hmodel]; rfl)]
            exact hwell
      owned := by
        intro l v hv hmodel
        obtain ⟨u, hu, rfl⟩ := hget hv
        exact h.allOwned l u hu ((hmodel_eq u).symm.trans hmodel)
      declared := h.declared
      coherent := h.toLoading.entries_indexBehind.1
      tracked := by
        intro e he
        obtain ⟨u, hu, hmodel⟩ := h.tracked_indexBehind hold he
        refine ⟨b.unitBehind u, ?_, (hmodel_eq u).trans hmodel⟩
        rw [get?_linked, hu]
        rfl
      entriesIn_eq := by
        intro l v hv hmodel
        obtain ⟨u, hu, rfl⟩ := hget hv
        obtain ⟨taken, hentries⟩ :=
          h.entriesIn_indexBehind hold hu ((hmodel_eq u).symm.trans hmodel)
        refine ⟨taken, ?_⟩
        rw [(sameSource_unitBehind b u).entriesGiven_eq]
        exact hentries
      linked := by
        intro l v hv hmodel
        obtain ⟨u, hu, rfl⟩ := hget hv
        have hmodel : u.isModel = true := (hmodel_eq u).symm.trans hmodel
        rcases h.ready_or_old hu hmodel with hready | ⟨hready, hchanged, -, hbefore⟩
        · exact linkedBy_unitBehind_of_ready hready
        · exact h.linkedBy_unitBehind_of_old hold hchanged hready hbefore hmodel }

/-! ## Manifests -/

/-- A unit with the diagnostics of a manifest found again. -/
def refreshedUnit (problems : List (Location × PackageProblem)) (u : SourceUnit) :
    SourceUnit :=
  if u.isManifest then { u with diagnostics := manifestDiagnostics problems u } else u

theorem get?_refreshManifests (b : Build) (l : Location) :
    b.refreshManifests.workspace.units.get? l =
      (b.workspace.units.get? l).map (refreshedUnit b.workspace.packages.problems) :=
  LocationMap.get?_map _ _ _

/-- Finding the diagnostics of manifests again leaves model files alone. -/
theorem settled_refreshManifests (h : b.workspace.ModelsSettled) :
    b.refreshManifests.workspace.Settled := by
  -- a manifest changes in its diagnostics only, and a model unit does not change
  have hget : ∀ {l v}, b.refreshManifests.workspace.units.get? l = some v →
      ∃ u, b.workspace.units.get? l = some u ∧
        refreshedUnit b.workspace.packages.problems u = v := by
    intro l v hv
    rw [get?_refreshManifests] at hv
    exact Option.map_eq_some_iff.mp hv
  have hmodel_eq : ∀ u, (refreshedUnit b.workspace.packages.problems u).isModel = u.isModel := by
    intro u
    unfold refreshedUnit
    split <;> rfl
  have hmodel : ∀ {u}, u.isModel = true →
      refreshedUnit b.workspace.packages.problems u = u := by
    intro u hmodel
    refine if_neg ?_
    rw [isManifest_eq_not_isModel, hmodel]
    exact Bool.false_ne_true
  exact
    { wellFormed := by
        intro l v hv
        obtain ⟨u, hu, rfl⟩ := hget hv
        have hwell := h.wellFormed l u hu
        unfold refreshedUnit
        split
        · exact ⟨hwell.location_eq, hwell.isModel_eq, hwell.document_eq, hwell.manifest_eq,
            hwell.validated, hwell.unlinked, hwell.unparsed⟩
        · exact hwell
      owned := by
        intro l v hv hkind
        obtain ⟨u, hu, rfl⟩ := hget hv
        exact h.owned l u hu ((hmodel_eq u).symm.trans hkind)
      declared := h.declared
      coherent := h.coherent
      tracked := by
        intro e he
        obtain ⟨u, hu, hkind⟩ := h.tracked e he
        refine ⟨u, ?_, hkind⟩
        rw [get?_refreshManifests, hu, Option.map_some, hmodel hkind]
      entriesIn_eq := by
        intro l v hv hkind
        obtain ⟨u, hu, rfl⟩ := hget hv
        have hkind : u.isModel = true := (hmodel_eq u).symm.trans hkind
        rw [hmodel hkind]
        exact h.entriesIn_eq l u hu hkind
      linked := by
        intro l v hv hkind
        obtain ⟨u, hu, rfl⟩ := hget hv
        have hkind : u.isModel = true := (hmodel_eq u).symm.trans hkind
        rw [hmodel hkind]
        exact h.linked l u hu hkind
      diagnosed := by
        intro l v hv hmanifest
        obtain ⟨u, hu, rfl⟩ := hget hv
        rw [isManifest_eq_not_isModel, hmodel_eq, ← isManifest_eq_not_isModel] at hmanifest
        unfold refreshedUnit
        rw [if_pos hmanifest]
        rfl }

/-- Behind its last stage a build leaves a settled workspace. -/
theorem Loading.settled_finished (h : Loading old b) (hold : old.Settled) (disk : Disk)
    {models : LocationSet} (hmodels : ∀ l ∈ models.toList, old.config.isManifest l = false) :
    (b.finished disk models).workspace.Settled := by
  have hprepared : Prepared old (b.loaded disk models) :=
    (h.prepared hold).loadedModels disk hmodels
  unfold finished
  dsimp only
  generalize b.loaded disk models = c at hprepared ⊢
  have hlinked := hprepared.modelsSettled hold
  split
  · exact settled_refreshManifests hlinked
  · -- neither packages nor manifests have changed
    rename_i hnothing
    obtain ⟨hchanged, hparsed⟩ := not_or.mp hnothing
    have hchanged : c.packagesChanged = false := Bool.eq_false_of_not_eq_true hchanged
    have hparsed : c.report.parsed = [] := not_ne_iff.mp hparsed
    refine ⟨hlinked, fun l v hv hmanifest => ?_⟩
    rw [get?_linked] at hv
    obtain ⟨u, hu, rfl⟩ := Option.map_eq_some_iff.mp hv
    have hkind : u.isManifest = true := by
      rw [isManifest_eq_not_isModel, (sameSource_unitBehind c u).isModel_eq,
        ← isManifest_eq_not_isModel] at hmanifest
      exact hmanifest
    rw [unitBehind_of_isManifest hkind]
    have hbefore := hprepared.manifests hparsed l u hu hkind
    show u.diagnostics = manifestDiagnostics c.workspace.packages.problems u
    rw [hprepared.packages_eq hchanged]
    exact hold.diagnosed l u hbefore hkind

end Build
end ModelWorkspace
