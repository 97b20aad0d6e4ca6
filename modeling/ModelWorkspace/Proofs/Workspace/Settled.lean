import ModelWorkspace.Proofs.Package.Declared
import ModelWorkspace.Proofs.Workspace.Stages
import ModelWorkspace.Workspace.Query

/-!
# Workspaces between updates

A settled workspace is one in which nothing is stale: every unit is what its text says,
every model unit has an owner, its entries are those its tree asks for in the package of
the owner, its links and diagnostics are those that the index and the packages give, and
the diagnostics of manifests show the problems with the packages.
-/

namespace ModelWorkspace

namespace SourceUnit

/-- A unit as it is tracked at a location: everything that is known of it comes from its
text. -/
structure WellFormed (u : SourceUnit) (config : WorkspaceConfig) (l : Location) : Prop where
  location_eq : u.location = l
  isModel_eq : u.isModel = !config.isManifest l
  document_eq : u.isModel = true → u.document = Document.ofText u.text
  manifest_eq : u.isManifest = true → u.manifest = (Manifest.ofText u.text).toOption
  validated : u.isManifest = true → u.state = .validated
  unlinked : u.isManifest = true → u.links = {}
  unparsed : u.isManifest = true → u.document = {}

/-- Units that differ at most in how far they have come, and in what follows from that. -/
structure SameSource (u v : SourceUnit) : Prop where
  location_eq : v.location = u.location
  kind_eq : v.kind = u.kind
  text_eq : v.text = u.text
  document_eq : v.document = u.document

variable {u v : SourceUnit}

namespace SameSource

theorem refl (u : SourceUnit) : SameSource u u := ⟨rfl, rfl, rfl, rfl⟩

theorem trans {w : SourceUnit} (h : SameSource u v) (h' : SameSource v w) : SameSource u w where
  location_eq := h'.location_eq.trans h.location_eq
  kind_eq := h'.kind_eq.trans h.kind_eq
  text_eq := h'.text_eq.trans h.text_eq
  document_eq := h'.document_eq.trans h.document_eq

theorem isModel_eq (h : SameSource u v) : v.isModel = u.isModel := by
  unfold isModel
  rw [h.kind_eq]

theorem entriesGiven_eq (h : SameSource u v) (packages : PackageGraph) (taken : List String) :
    v.entriesGiven packages taken = u.entriesGiven packages taken := by
  unfold entriesGiven Build.plan?
  rw [h.document_eq, h.location_eq]

end SameSource

/-- A model unit does not stand where a manifest would. -/
theorem WellFormed.isManifest_eq_false {config : WorkspaceConfig} {l : Location}
    (h : u.WellFormed config l) (hmodel : u.isModel = true) : config.isManifest l = false := by
  have hkind := h.isModel_eq
  rw [hmodel] at hkind
  simpa using hkind.symm

/-- The tree of a unit is that of its text. -/
theorem WellFormed.root_ofText {config : WorkspaceConfig} {l : Location}
    (h : u.WellFormed config l) {root : Element} (hroot : u.document.root = some root) :
    (Document.ofText u.text).root = some root := by
  cases hmodel : u.isModel with
  | true => rw [← h.document_eq hmodel, hroot]
  | false =>
      rw [h.unparsed (by rw [isManifest_eq_not_isModel, hmodel]; rfl)] at hroot
      cases hroot

/-- A model unit stays well formed whatever its state is. -/
theorem WellFormed.of_sameSource {config : WorkspaceConfig} {l : Location}
    (h : u.WellFormed config l) (hsame : SameSource u v) (hmodel : u.isModel = true) :
    v.WellFormed config l := by
  have hkind : v.isModel = true := hsame.isModel_eq.trans hmodel
  have hnot : v.isManifest ≠ true := by
    rw [isManifest_eq_not_isModel, hkind]
    exact Bool.false_ne_true
  refine ⟨hsame.location_eq.trans h.location_eq, hsame.isModel_eq.trans h.isModel_eq, ?_,
    fun hmanifest => absurd hmanifest hnot, fun hmanifest => absurd hmanifest hnot,
    fun hmanifest => absurd hmanifest hnot, fun hmanifest => absurd hmanifest hnot⟩
  intro _
  rw [hsame.document_eq, hsame.text_eq]
  exact h.document_eq hmodel

/-- The entry of a model unit names an element of it, in the package of its owner. -/
theorem WellFormed.of_mem_entriesIn {config : WorkspaceConfig} {l : Location}
    (h : u.WellFormed config l) (hmodel : u.isModel = true) {index : Index}
    (hcoherent : index.Coherent) {packages : PackageGraph} {taken : List String}
    (hentries : index.entriesIn l = u.entriesGiven packages taken) {e : IndexEntry}
    (he : e ∈ index.entries) (hl : e.location = l) :
    (packages.packageFor? l).map (·.id) = some e.package ∧
      ∃ root element, u.document.root = some root ∧ root.walk e.path = some element ∧
        element.kind = e.kind := by
  have hmem : e ∈ u.entriesGiven packages taken := by
    rw [← hentries, hcoherent.entriesIn_eq, List.mem_filter]
    exact ⟨he, decide_eq_true hl⟩
  obtain ⟨-, hpackage, hwalk⟩ := mem_entriesGiven (h.document_eq hmodel) hmem
  rw [h.location_eq] at hpackage
  exact ⟨hpackage, hwalk⟩

end SourceUnit

namespace Workspace

/-- Nothing about the model files of the workspace is stale. -/
structure ModelsSettled (ws : Workspace) : Prop where
  wellFormed : ∀ l u, ws.units.get? l = some u → u.WellFormed ws.config l
  owned : ∀ l u, ws.units.get? l = some u → u.isModel = true →
    (ws.packages.packageFor? l).isSome = true
  declared : ws.packages.Declared
  coherent : ws.index.Coherent
  tracked : ∀ e ∈ ws.index.entries, ∃ u, ws.units.get? e.location = some u ∧ u.isModel = true
  entriesIn_eq : ∀ l u, ws.units.get? l = some u → u.isModel = true →
    ∃ taken, ws.index.entriesIn l = u.entriesGiven ws.packages taken
  linked : ∀ l u, ws.units.get? l = some u → u.isModel = true → u.linkedBy ws.linker = u

/-- Nothing in the workspace is stale. -/
structure Settled (ws : Workspace) : Prop extends ModelsSettled ws where
  diagnosed : ∀ l u, ws.units.get? l = some u → u.isManifest = true →
    u.diagnostics = Build.manifestDiagnostics ws.packages.problems u

namespace Settled

theorem ofConfig (config : WorkspaceConfig) : (Workspace.ofConfig config).Settled where
  wellFormed := fun _ _ h => nomatch h
  owned := fun _ _ h => nomatch h
  declared := PackageGraph.declared_empty
  coherent := Index.coherent_empty
  tracked := fun _ h => absurd h List.not_mem_nil
  entriesIn_eq := fun _ _ h => nomatch h
  linked := fun _ _ h => nomatch h
  diagnosed := fun _ _ h => nomatch h

variable {ws : Workspace}

/-- Buffers and requests to call off a parse do not matter. -/
theorem congr (h : ws.Settled) {other : Workspace} (hconfig : other.config = ws.config)
    (hunits : other.units = ws.units) (hindex : other.index = ws.index)
    (hpackages : other.packages = ws.packages) : other.Settled := by
  obtain ⟨config, units, index, packages, buffers, requests, pending⟩ := other
  cases hconfig
  cases hunits
  cases hindex
  cases hpackages
  exact ⟨⟨h.wellFormed, h.owned, h.declared, h.coherent, h.tracked, h.entriesIn_eq,
    h.linked⟩, h.diagnosed⟩

/-- Every unit has taken all steps of its lifecycle. -/
theorem validated (h : ws.Settled) {l : Location} {u : SourceUnit}
    (hu : ws.units.get? l = some u) : u.state = .validated := by
  cases hmodel : u.isModel with
  | true =>
      rw [← h.linked l u hu hmodel]
      rfl
  | false =>
      refine (h.wellFormed l u hu).validated ?_
      rw [SourceUnit.isManifest_eq_not_isModel, hmodel]
      rfl

/-- The links of a model unit are those of its tree. -/
theorem links_eq (h : ws.Settled) {l : Location} {u : SourceUnit}
    (hu : ws.units.get? l = some u) (hmodel : u.isModel = true) :
    u.links = ws.linker.linkDocument l u.document.root := by
  rw [← (h.wellFormed l u hu).location_eq]
  exact (congrArg SourceUnit.links (h.linked l u hu hmodel)).symm

/-- An entry of the index names an element of a model unit, in the package that owns the
unit. -/
theorem entry (h : ws.Settled) {e : IndexEntry} (he : e ∈ ws.index.entries) :
    ∃ u, ws.unit? e.location = some u ∧ u.isModel = true ∧
      (∃ element, ws.resolveElement e = some element ∧ element.kind = e.kind) ∧
      (ws.packageOf? e.location).map (·.id) = some e.package := by
  obtain ⟨u, hu, hmodel⟩ := h.tracked e he
  obtain ⟨taken, hentries⟩ := h.entriesIn_eq _ u hu hmodel
  obtain ⟨hpackage, root, element, hroot, hwalk, hkind⟩ :=
    (h.wellFormed _ u hu).of_mem_entriesIn hmodel h.coherent hentries he rfl
  refine ⟨u, hu, hmodel, ⟨element, ?_, hkind⟩, hpackage⟩
  have hroot? : ws.root? e.location = some root := by
    unfold root? unit?
    rw [hu]
    exact hroot
  unfold resolveElement
  rw [hroot?]
  exact hwalk

end Settled
end Workspace
end ModelWorkspace
