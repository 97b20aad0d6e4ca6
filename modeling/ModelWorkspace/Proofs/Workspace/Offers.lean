import ModelWorkspace.Proofs.Link.Anchors
import ModelWorkspace.Proofs.Workspace.Completeness
import ModelWorkspace.Workspace.Completion

/-!
# What completion offers behind a run

Every unit of a settled workspace makes its references inside a package.  So what completion
offers for a property without an anchor are the elements that may be named there, and no
text leads to any other (`run_candidates_are_targets`).

In a complete index names tell what contains what, so each label that is offered means its
element, with two exceptions: an object may lead it astray, and the name of a package may
hide it (`run_labels_resolve_iff`).
-/

namespace ModelWorkspace
namespace Workspace

variable {ws : Workspace} {l : Location} {u : SourceUnit}

/-- References of a tracked unit are made in a package. -/
theorem Settled.inside (h : ws.Settled) (hu : ws.units.get? l = some u)
    (hmodel : u.isModel = true) :
    ∃ p, ws.packageOf? l = some p ∧ ws.linker.Inside (ws.linker.origin l) p := by
  obtain ⟨p, hp⟩ := Option.isSome_iff_exists.mp (h.owned l u hu hmodel)
  have hpackages : ∀ q ∈ ws.packages.toList, Name.IsPackageId q.id := h.declared.isPackageId
  have hpackage : ∀ e ∈ ws.index.entries,
      (ws.packages.packageFor? e.location).map (·.id) = some e.package :=
    fun e he => (h.entry he).elim fun _ hentry => hentry.2.2.2
  refine ⟨p, hp, Linker.confined_of_location h.coherent (fun e he => ?_) fun e he hl => ?_, hp,
    Linker.isPackageId_of_mem_namespacesFrom hpackages hp⟩
  · obtain ⟨q, hq, hid⟩ := Option.map_eq_some_iff.mp (hpackage e he)
    rw [← hid]
    exact hpackages q (PackageGraph.mem_toList_of_packageFor? hq)
  · have hown := hpackage e he
    rw [hl] at hown
    have hsame : some p.id = some e.package := by
      rw [← hown]
      exact congrArg (Option.map (·.id)) hp.symm
    exact (Option.some.inj hsame).symm

/-- **Completion and resolution see the same elements.**  After every run, the candidates
for a property without an anchor are, each once, the entries of the expected kind that are in
the same file, in the package that owns the file or in one that this package sees; and
whatever is written there, if it means an element, this is one of the candidates. -/
theorem run_candidates_are_targets (config : WorkspaceConfig) (operations : List Operation) :
    ((Workspace.ofConfig config).run operations).GivesUnless (SplitBy operations) fun ws =>
      ∀ l u root path element property spec, ws.unit? l = some u → u.isModel = true →
        u.document.root = some root → root.walk path = some element →
        element.kind.reference? property = some spec → spec.anchor = none →
        ∃ p, ws.packageOf? l = some p ∧
          ((ws.linker.candidates l root path property).map (·.entry)).Nodup ∧
          (∀ e, e ∈ (ws.linker.candidates l root path property).map (·.entry) ↔
            e ∈ ws.index.entries ∧ e.kind = spec.target ∧
              (e.location = l ∨
                e.package ∈ p.id ::
                  (ws.packages.visibleFrom p ws.config.dependencyScope).map (·.id))) ∧
          ∀ links index text range e,
            ws.linker.resolveSite (ws.linker.origin l) root links path element.kind
              ⟨property, index, text, range, spec.target⟩ = some e →
            e ∈ (ws.linker.candidates l root path property).map (·.entry) := by
  refine ((Settled.ofConfig config).run operations).mono fun ws hsettled => ?_
  intro l u root path element property spec hu hmodel _ hwalk hspec hanchor
  obtain ⟨p, hp, hinside⟩ := hsettled.inside hu hmodel
  refine ⟨p, hp, Linker.nodup_entries_candidates hwalk hspec hanchor, fun e => ?_,
    fun links index text range e hresolved => ?_⟩
  · rw [hinside.mem_entries_candidates_iff hwalk hspec hanchor, Linker.isTarget_iff]
    constructor
    · rintro ⟨hmem, hpackage, hkind⟩
      exact ⟨hmem, hkind, Or.inr hpackage⟩
    · rintro ⟨hmem, hkind, hl | hpackage⟩
      · exact ⟨hmem, hinside.confined.visible_of_location e hmem hl, hkind⟩
      · exact ⟨hmem, hpackage, hkind⟩
  · rw [hinside.mem_entries_candidates_iff hwalk hspec hanchor]
    rw [Linker.resolveSite_congr_links hspec hanchor links {}] at hresolved
    exact hinside.isTarget_resolveSite Linker.bounded_empty hresolved

/-! ## Labels -/

namespace Complete

/-- The entries of a unit are layered. -/
theorem layered_entriesIn (h : ws.Complete) (hu : ws.units.get? l = some u)
    (hmodel : u.isModel = true) : Layered (ws.index.entriesIn l) := by
  have hwellFormed := h.wellFormed l u hu
  have hdocument := hwellFormed.document_eq hmodel
  have hlisted := h.listed l u hu hmodel
  obtain ⟨taken, hentries⟩ := h.entriesIn_eq l u hu hmodel
  rw [hentries] at hlisted ⊢
  unfold SourceUnit.entriesGiven at hlisted ⊢
  cases hplan : Build.plan? ws.packages u with
  | none =>
      exact ⟨fun _ he => absurd he List.not_mem_nil, fun _ he => absurd he List.not_mem_nil⟩
  | some plan =>
      rw [hplan] at hlisted
      dsimp only at hlisted ⊢
      obtain ⟨-, hroot, hid, -⟩ := SourceUnit.plan?_eq_some_iff.mp hplan
      have hparsed : (Document.ofText u.text).root = some plan.root := by
        rw [← hdocument]
        exact hroot
      obtain ⟨hkind, htyped⟩ := (Document.isLowered_root hparsed).isTyped
      refine UnitPlan.layered_newEntries
        (SourceUnit.isNameable_of_plan? hdocument (h.texts.units l u hu) h.declared hplan)
        (Document.isLowered_root hparsed).distinct htyped hkind ?_
      -- as many entries are listed as there are elements, and as many names
      have hlength := congrArg List.length hlisted
      rw [SourceUnit.listing_of_root hroot (Option.isSome_of_eq_some hid), Element.descendants,
        ← Name.map_assign plan.root ElementPath.root
          (Name.freshGlobal taken plan.package plan.rootName).1
          (Name.freshGlobal taken plan.package plan.rootName).1,
        List.length_map, List.length_map] at hlength
      exact hlength

theorem layered (h : ws.Complete) : Layered ws.index.entries := by
  have hunit : ∀ e ∈ ws.index.entries, e ∈ ws.index.entriesIn e.location ∧
      Layered (ws.index.entriesIn e.location) := by
    intro e he
    obtain ⟨u, hu, hmodel⟩ := h.tracked e he
    refine ⟨?_, h.layered_entriesIn hu hmodel⟩
    rw [h.coherent.entriesIn_eq]
    exact List.mem_filter.mpr ⟨he, decide_eq_true rfl⟩
  constructor
  · intro e he
    obtain ⟨hmem, hlayered⟩ := hunit e he
    exact hlayered.count_dot e hmem
  · intro e he
    obtain ⟨hmem, hlayered⟩ := hunit e he
    refine (hlayered.owner e hmem).imp_right ?_
    rintro ⟨owner, howner, hin⟩
    rw [h.coherent.entriesIn_eq] at howner
    exact ⟨owner, List.mem_of_mem_filter howner, hin⟩

/-- References of a unit are made inside a package, in an index whose names tell what
contains what. -/
theorem reading (h : ws.Complete) (hu : ws.units.get? l = some u) (hmodel : u.isModel = true) :
    ∃ p, ws.packageOf? l = some p ∧ ws.linker.Reading (ws.linker.origin l) p := by
  obtain ⟨p, hp, hinside⟩ := h.toSettled.inside hu hmodel
  refine ⟨p, hp, hinside, fun e he hl => ?_, h.layered⟩
  obtain ⟨-, -, -, -, hpackage⟩ := h.toSettled.entry he
  have hl : e.location = l := hl
  rw [hl, hp] at hpackage
  exact (Option.some.inj hpackage).symm

end Complete

/-- **What labels mean.**  If a run is given no texts but those that declare valid
identifiers, then in the end a reference that is written with the label of a candidate means
this candidate, unless the label starts with the identifier of an object that refers to
another entity than that of the candidate, or unless the candidate has the name of its package
and a package that is seen before has an element of the same name and kind. -/
theorem run_labels_resolve_iff (config : WorkspaceConfig) (operations : List Operation)
    (htexts : ∀ operation ∈ operations, ∀ text ∈ operation.texts, DeclaresIdentifiers text) :
    ((Workspace.ofConfig config).run operations).GivesUnless (SplitBy operations) fun ws =>
      ∀ l u root path element property spec c, ws.unit? l = some u → u.isModel = true →
        u.document.root = some root → root.walk path = some element →
        element.kind.reference? property = some spec →
        c ∈ ws.linker.candidates l root path property →
        ∃ p, ws.packageOf? l = some p ∧
          ∀ (earlier : List ReferenceSite) (index : Nat) (range : TextRange),
            ws.linker.resolveSite (ws.linker.origin l) root
                (earlier.foldl (ws.linker.linkSite (ws.linker.origin l) root path element.kind)
                  (ws.linker.linksBefore l root path))
                path element.kind ⟨property, index, c.label, range, spec.target⟩ = some c.entry ↔
              ¬ (ws.linker.LeadsAstray (ws.linker.origin l) root spec c ∨
                ws.linker.IsHidden p c.entry) := by
  refine ((Complete.ofConfig config).run htexts).mono fun ws hcomplete => ?_
  intro l u root path element property spec c hu hmodel hroot hwalk hspec hc
  obtain ⟨p, hp, hreading⟩ := hcomplete.reading hu hmodel
  refine ⟨p, hp, fun earlier index range => ?_⟩
  have hparsed : (Document.ofText u.text).root = some root := by
    rw [← (hcomplete.wellFormed l u hu).document_eq hmodel]
    exact hroot
  cases hanchor : spec.anchor with
  | none =>
      have hnameable : root.IsNameable :=
        (Document.isLowered_root hparsed).isNameable fun described hmem id hid =>
          .of_isIdentifier (hcomplete.texts.units l u hu root hparsed described hmem id hid)
      exact hreading.resolveSite_label_iff hnameable hwalk hspec hanchor hc _ index range
  | some anchor =>
      exact iff_of_true (hreading.resolveSite_anchored (Document.isLowered_root hparsed).distinct
          (Document.isLowered_root hparsed).isTyped.2 hwalk hspec hanchor hc earlier index range)
        (hreading.not_leadsAstray_of_anchor hwalk hspec hanchor hc)

end Workspace

namespace Histories

open Change Workspace

/-- A model file with an entity that has one attribute. -/
def recordAt (path id member : String) : Location × String :=
  (⟨path⟩, "entity:\n  id: " ++ id ++ "\n  attributes:\n    - id: " ++ member ++ "\n")

/-- A mapping whose source object is named like an entity that it does not refer to. -/
def mappingAt (path : String) : Location × String :=
  (⟨path⟩, "mapping:\n  id: M\n  sources:\n    - id: B\n      entity: A\n" ++
    "  target:\n    entity: A\n    mappings:\n      - attribute: x\n        source: B.y\n")

/-- Two entities, and a mapping that may name attributes of both. -/
def mapped : List Change :=
  edits Disk.empty [manifestAt "/p/package.json", recordAt "/p/a.cm" "A" "x",
    recordAt "/p/b.cm" "B" "y", mappingAt "/p/m.cm"]

/-- A package that depends on another one, `q`, in which an entity is named like it. -/
def homonyms : List Change :=
  edits Disk.empty
    [(⟨"/p/package.json"⟩, "\x7b\"name\": \"p\", \"dependencies\": \x7b\"q\": \"*\"\x7d\x7d"),
      (⟨"/q/package.json"⟩, "\x7b\"name\": \"q\"\x7d"), entityAt "/q/q.cm" "q",
      entityAt "/p/q.cm" "q", entityAt "/p/a.cm" "A"]

/-- The place of the attribute mapping. -/
def sourcePath : ElementPath := [⟨"target", 0⟩, ⟨"mappings", 0⟩]

/-- What is known of a place behind some updates: whether its unit is a model file, what the
property is to name, and for each candidate its label, its global identifier and whether the
label means it. -/
def placeAt (changes : List Change) (l : Location) (path : ElementPath) (property : String) :
    Option (Bool × ReferenceSpec × List (String × String × Bool)) := do
  let ws ← (updates {} changes).toOption
  let u ← ws.unit? l
  let root ← u.document.root
  let element ← root.walk path
  let spec ← element.kind.reference? property
  return (u.isModel, spec, (ws.linker.candidates l root path property).map fun c =>
    (c.label, c.entry.globalId,
      ws.linker.resolveSite (ws.linker.origin l) root (ws.linker.linksBefore l root path) path
        element.kind ⟨property, 0, c.label, ⟨0, 0⟩, spec.target⟩ == some c.entry))

theorem exists_of_placeAt {changes : List Change} {l : Location} {path : ElementPath}
    {property : String} {spec : ReferenceSpec} {found : List (String × String × Bool)}
    (h : placeAt changes l path property = some (true, spec, found)) :
    ∃ ws u root element, updates {} changes = .ok ws ∧ ws.unit? l = some u ∧
      u.isModel = true ∧ u.document.root = some root ∧ root.walk path = some element ∧
      element.kind.reference? property = some spec ∧
      ((ws.linker.candidates l root path property).map fun c => (c.label, c.entry.globalId,
        ws.linker.resolveSite (ws.linker.origin l) root (ws.linker.linksBefore l root path) path
          element.kind ⟨property, 0, c.label, ⟨0, 0⟩, spec.target⟩ == some c.entry)) = found := by
  unfold placeAt at h
  simp only [Option.bind_eq_bind, Option.pure_def, Option.bind_eq_some_iff,
    Option.some.injEq, Prod.mk.injEq] at h
  obtain ⟨ws, hrun, u, hu, root, hroot, element, hwalk, _, hspec, hmodel, rfl, hfound⟩ := h
  refine ⟨ws, u, root, element, ?_, hu, hmodel, hroot, hwalk, hspec, hfound⟩
  cases hupdates : updates {} changes with
  | error fault =>
      rw [hupdates] at hrun
      cases hrun
  | ok last =>
      rw [hupdates] at hrun
      cases hrun
      rfl

theorem declaresIdentifiers_mapped : ∀ operation ∈ mapped.map Change.operation,
    ∀ text ∈ operation.texts, DeclaresIdentifiers text := by
  decide +kernel

theorem declaresIdentifiers_homonyms : ∀ operation ∈ homonyms.map Change.operation,
    ∀ text ∈ operation.texts, DeclaresIdentifiers text := by
  decide +kernel

theorem placeAt_mapped : placeAt mapped ⟨"/p/m.cm"⟩ sourcePath "source" =
    some (true, ⟨"source", .entityAttribute, false, none, some "sources"⟩,
      [("B.x", "p.A.x", true), ("B.y", "p.B.y", false)]) := by
  decide +kernel

theorem run_candidates_are_targets_mapped :
    ∃ ws u root element p, updates {} mapped = .ok ws ∧ ws.unit? ⟨"/p/m.cm"⟩ = some u ∧
      u.document.root = some root ∧ root.walk sourcePath = some element ∧
      ws.packageOf? ⟨"/p/m.cm"⟩ = some p ∧
      (∀ e ∈ ws.index.entries, e.kind = .entityAttribute → e.package = p.id →
        e.globalId = "p.A.x" ∨ e.globalId = "p.B.y") ∧
      ∀ text e, ws.linker.resolveSite (ws.linker.origin ⟨"/p/m.cm"⟩) root {} sourcePath
          element.kind ⟨"source", 0, text, ⟨0, 0⟩, .entityAttribute⟩ = some e →
        e.globalId = "p.A.x" ∨ e.globalId = "p.B.y" := by
  obtain ⟨ws, u, root, element, hread, hu, hmodel, hroot, hwalk, hspec, hfound⟩ :=
    exists_of_placeAt placeAt_mapped
  have hall := (run_candidates_are_targets {} (mapped.map Change.operation)).of_eq_ok hread
  obtain ⟨p, hp, -, hiff, hresolve⟩ :=
    hall _ u root sourcePath element "source" _ hu hmodel hroot hwalk hspec rfl
  have hlisted : ∀ {e}, e ∈ (ws.linker.candidates ⟨"/p/m.cm"⟩ root sourcePath "source").map
      (·.entry) → e.globalId = "p.A.x" ∨ e.globalId = "p.B.y" := by
    intro e he
    obtain ⟨c, hc, rfl⟩ := List.mem_map.mp he
    have hmem := List.mem_map_of_mem (f := fun c : Candidate => (c.label, c.entry.globalId,
      ws.linker.resolveSite (ws.linker.origin ⟨"/p/m.cm"⟩) root
        (ws.linker.linksBefore ⟨"/p/m.cm"⟩ root sourcePath) sourcePath element.kind
        ⟨"source", 0, c.label, ⟨0, 0⟩, .entityAttribute⟩ == some c.entry)) hc
    rw [hfound] at hmem
    simp only [List.mem_cons, List.not_mem_nil, or_false, Prod.mk.injEq] at hmem
    exact hmem.imp (·.2.1) (·.2.1)
  refine ⟨ws, u, root, element, p, hread, hu, hroot, hwalk, hp, ?_, ?_⟩
  · intro e he hkind hpackage
    exact hlisted ((hiff e).mpr ⟨he, hkind, Or.inr (List.mem_cons.mpr (Or.inl hpackage))⟩)
  · intro text e hresolved
    exact hlisted (hresolve {} 0 text ⟨0, 0⟩ e hresolved)

theorem run_labels_resolve_iff_mapped :
    (∀ operation ∈ mapped.map Change.operation, ∀ text ∈ operation.texts,
      DeclaresIdentifiers text) ∧
    ∃ ws root p c other, updates {} mapped = .ok ws ∧
      ws.packageOf? ⟨"/p/m.cm"⟩ = some p ∧
      ws.linker.candidates ⟨"/p/m.cm"⟩ root sourcePath "source" = [c, other] ∧
      (c.label = "B.x" ∧
        ¬ (ws.linker.LeadsAstray (ws.linker.origin ⟨"/p/m.cm"⟩) root
            ⟨"source", .entityAttribute, false, none, some "sources"⟩ c ∨
          ws.linker.IsHidden p c.entry)) ∧
      other.label = "B.y" ∧
        (ws.linker.LeadsAstray (ws.linker.origin ⟨"/p/m.cm"⟩) root
            ⟨"source", .entityAttribute, false, none, some "sources"⟩ other ∨
          ws.linker.IsHidden p other.entry) := by
  obtain ⟨ws, u, root, element, hread, hu, hmodel, hroot, hwalk, hspec, hfound⟩ :=
    exists_of_placeAt placeAt_mapped
  have hall := (run_labels_resolve_iff {} _ declaresIdentifiers_mapped).of_eq_ok hread
  obtain ⟨c, rest, hlist, hc, hrest⟩ := List.map_eq_cons_iff.mp hfound
  obtain ⟨other, rest, rfl, hother, hrest⟩ := List.map_eq_cons_iff.mp hrest
  obtain rfl := List.map_eq_nil_iff.mp hrest
  simp only [Prod.mk.injEq] at hc hother
  have hlabel := fun c hc => hall _ u root sourcePath element "source" _ c hu hmodel hroot hwalk
    hspec hc
  obtain ⟨p, hp, hmeans⟩ := hlabel c (by rw [hlist]; exact List.mem_cons_self)
  obtain ⟨q, hq, hmeans'⟩ := hlabel other (by rw [hlist]; simp)
  obtain rfl := Option.some.inj (hp.symm.trans hq)
  refine ⟨declaresIdentifiers_mapped, ws, root, p, c, other, hread, hp, hlist, ⟨hc.1, ?_⟩,
    hother.1, ?_⟩
  · exact (hmeans [] 0 ⟨0, 0⟩).mp (beq_iff_eq.mp hc.2.2)
  · by_contra hnot
    exact (beq_eq_false_iff_ne.mp hother.2.2) ((hmeans' [] 0 ⟨0, 0⟩).mpr hnot)

/-- Labels need not mean their elements: an object may have the name of an entity that it does
not refer to, and an entity the name of a package that is seen. -/
theorem labels_may_mean_others :
    ((∀ operation ∈ mapped.map Change.operation, ∀ text ∈ operation.texts,
        DeclaresIdentifiers text) ∧
      placeAt mapped ⟨"/p/m.cm"⟩ sourcePath "source" =
        some (true, ⟨"source", .entityAttribute, false, none, some "sources"⟩,
          [("B.x", "p.A.x", true), ("B.y", "p.B.y", false)])) ∧
    (∀ operation ∈ homonyms.map Change.operation, ∀ text ∈ operation.texts,
        DeclaresIdentifiers text) ∧
      placeAt homonyms ⟨"/p/a.cm"⟩ ElementPath.root "superEntities" =
        some (true, ⟨"superEntities", .entity, true, none, none⟩,
          [("A", "p.A", true), ("q", "p.q", true), ("q", "q", false)]) := by
  refine ⟨⟨declaresIdentifiers_mapped, placeAt_mapped⟩, declaresIdentifiers_homonyms, ?_⟩
  decide +kernel

end Histories
end ModelWorkspace
