import ModelWorkspace.Proofs.Link.OwnTargets
import ModelWorkspace.Proofs.Workspace.Navigation

/-!
# References inside one file

A file is indexed among others, and its root is called what is still free in the package.  So
what a file says about its own elements depends on other files as far as it mentions the name
of the root: what is written below the root means the same element wherever the file is
indexed, and what is written with the name of the root does so exactly where the root has the
same name (`run_own_targets`).
-/

namespace ModelWorkspace
namespace Workspace

variable {ws ws' : Workspace} {l : Location} {u u' : SourceUnit} {e : IndexEntry}
  {r r' : LinkedReference}

/-- The entries of a unit with valid identifiers are those of its tree, and the root declares
an identifier. -/
theorem Settled.exists_namedAs (h : ws.Settled) (hu : ws.unit? l = some u)
    (hmodel : u.isModel = true) (hids : DeclaresIdentifiers u.text) (he : e ∈ ws.index.entriesIn l) :
    ∃ root rootName, (Document.ofText u.text).root = some root ∧ root.id.isSome = true ∧
      ws.index.NamedAs l root rootName ∧
      ∃ described ∈ root.descendants, described.1 = e.path ∧ described.2.kind = e.kind := by
  have hdocument := (h.wellFormed l u hu).document_eq hmodel
  obtain ⟨taken, hentries⟩ := h.entriesIn_eq l u hu hmodel
  unfold SourceUnit.entriesGiven at hentries
  cases hplan : Build.plan? ws.packages u with
  | none =>
      rw [hplan] at hentries
      rw [hentries] at he
      exact absurd he List.not_mem_nil
  | some plan =>
      rw [hplan] at hentries
      dsimp only at hentries
      obtain ⟨-, hroot, hid, -⟩ := SourceUnit.plan?_eq_some_iff.mp hplan
      rw [hdocument] at hroot
      have hplain := (SourceUnit.isNameable_of_plan? hdocument hids h.declared hplan).rootName
      refine ⟨plan.root, _, hroot, Option.isSome_of_eq_some hid, UnitPlan.namedAs hplain hentries, ?_⟩
      rw [hentries] at he
      exact UnitPlan.exists_described_of_mem_newEntries (Document.isLowered_root hroot) he

/-- Entries of a unit are named after the package that owns it. -/
theorem Settled.globalId_of_mem_entriesIn (h : ws.Settled) {p : Package}
    (hp : ws.packageOf? l = some p) (he : e ∈ ws.index.entriesIn l) :
    e.globalId = Name.globalId p.id e.localName := by
  obtain ⟨hmem, hl⟩ := h.mem_entriesIn.mp he
  obtain ⟨-, -, -, -, hpackage⟩ := h.entry hmem
  rw [hl, hp] at hpackage
  rw [h.coherent.globalId_eq e hmem, ← Option.some.inj hpackage]

/-- A complete index lists the element at every path of a unit whose root declares an
identifier. -/
theorem Complete.exists_entry (h : ws.Complete) (hu : ws.unit? l = some u)
    (hmodel : u.isModel = true) {root : Element} (hroot : (Document.ofText u.text).root = some root)
    (hid : root.id.isSome = true) {described : ElementPath × Element}
    (hmem : described ∈ root.descendants) :
    ∃ e ∈ ws.index.entriesIn l, e.path = described.1 ∧ e.kind = described.2.kind := by
  have hlisted := h.listed l u hu hmodel
  rw [← (h.wellFormed l u hu).document_eq hmodel] at hroot
  rw [SourceUnit.listing_of_root hroot hid] at hlisted
  have hplace : (described.1, described.2.kind) ∈
      (ws.index.entriesIn l).map fun e => (e.path, e.kind) := by
    rw [hlisted]
    exact List.mem_map_of_mem hmem
  obtain ⟨e, he, heq⟩ := List.mem_map.mp hplace
  exact ⟨e, he, (Prod.mk.inj heq).1, (Prod.mk.inj heq).2⟩

/-- A reference that may mean an element of its own file is read as a name. -/
theorem Settled.target_eq_resolveName (h : ws.Settled) (hu : ws.unit? l = some u)
    (hr : r ∈ u.links.references) (he : e ∈ ws.index.entriesIn l) (hkind : e.kind = r.site.target) :
    r.target = ws.linker.resolveName (ws.linker.origin l) r.site.text e.kind := by
  obtain ⟨hmodel, root, hroot, hlinks⟩ := h.exists_root_of_reference hu hr
  obtain ⟨taken, hentries⟩ := h.entriesIn_eq l u hu hmodel
  rw [hentries] at he
  obtain ⟨-, -, tree, element, htree, hwalk, helement⟩ :=
    SourceUnit.mem_entriesGiven ((h.wellFormed l u hu).document_eq hmodel) he
  rw [(h.wellFormed l u hu).document_eq hmodel, hroot] at htree
  obtain rfl : root = tree := Option.some.inj htree
  rw [hlinks] at hr
  obtain ⟨d, hd, -, hsite, earlier, htarget⟩ := (Linker.linkedOf_foldl root.descendants).sound r hr
  obtain ⟨hanchor, hqualifier⟩ := (Document.isLowered_root hroot).plain_of_target_mem hd hsite
    (Element.mem_descendants_of_walk hwalk) (helement.trans hkind)
  rw [htarget, Linker.resolveSite_eq_resolveName hanchor hqualifier, hkind]

/-- A reference means an element of its own file if it spells it. -/
theorem Complete.target_eq_some_iff (h : ws.Complete) (hu : ws.unit? l = some u)
    (hr : r ∈ u.links.references) (he : e ∈ ws.index.entriesIn l) (hkind : e.kind = r.site.target) :
    r.target = some e ↔ ws.linker.Spells l r.site.text e := by
  obtain ⟨p, -, hreading⟩ := h.reading hu (h.toSettled.exists_root_of_reference hu hr).1
  obtain ⟨hmem, hl⟩ := h.mem_entriesIn.mp he
  rw [h.toSettled.target_eq_resolveName hu hr he hkind]
  exact ⟨hreading.spells_of_resolveName, hreading.resolveName_of_spells hmem hl⟩

/-- The same text in two workspaces: each entry of the first has a counterpart in the second,
which has its name if the roots have one name. -/
theorem Complete.exists_counterpart (h' : ws'.Complete) (h : ws.Settled)
    (hu : ws.unit? l = some u) (hu' : ws'.unit? l = some u') (hmodel : u.isModel = true)
    (hmodel' : u'.isModel = true) (htext : u.text = u'.text) {p p' : Package}
    (hp : ws.packageOf? l = some p) (hp' : ws'.packageOf? l = some p') (hpackage : p.id = p'.id)
    (he : e ∈ ws.index.entriesIn l) :
    ∃ e' ∈ ws'.index.entriesIn l, e'.kind = e.kind ∧
      (∀ other ∈ ws'.index.entriesIn l, other.path = e.path ↔ other = e') ∧
      ∀ text, ws.linker.Spells l text e → (ws'.linker.Spells l text e' ↔
        ws.linker.IsBelowRoot l text e ∨
          ws'.linker.rootName? l = ws.linker.rootName? l) := by
  have hids' : DeclaresIdentifiers u'.text := h'.texts.units l u' hu'
  obtain ⟨root, a, hroot, hid, hnamed, described, hmem, hpath, hkind⟩ :=
    h.exists_namedAs hu hmodel (htext ▸ hids') he
  rw [htext] at hroot
  obtain ⟨e', he', hpath', hkind'⟩ := h'.exists_entry hu' hmodel' hroot hid hmem
  obtain ⟨tree, b, htree, -, hnamed', -⟩ :=
    h'.toSettled.exists_namedAs hu' hmodel' hids' he'
  obtain rfl : tree = root := Option.some.inj (htree.symm.trans hroot)
  have hdistinct : tree.HasDistinctFeatures := (Document.isLowered_root htree).distinct
  have hplace : e'.path = e.path := hpath'.trans hpath
  refine ⟨e', he', hkind'.trans hkind, fun other hother => ⟨fun hother' => ?_, ?_⟩,
    fun text hspells => ?_⟩
  · exact hnamed'.eq_of_path_eq h'.coherent hdistinct hother he' (hother'.trans hplace.symm)
  · rintro rfl
    exact hplace
  · have hid' := h'.globalId_of_mem_entriesIn hp' he'
    rw [← hpackage] at hid'
    exact Linker.spells_iff hnamed hnamed' hdistinct he he' hplace.symm
      (h.declared.isPackageId p (PackageGraph.mem_toList_of_packageFor? hp))
      (h.globalId_of_mem_entriesIn hp he) hid' hspells

/-- One text, tracked in two workspaces: where a reference means an element of the file itself
in the first, it means the element at the same path in the second, or mentions a name of the
root that this has lost. -/
theorem Complete.own_target_iff (h' : ws'.Complete) (h : ws.Settled) (hu : ws.unit? l = some u)
    (hu' : ws'.unit? l = some u') (hmodel' : u'.isModel = true) (htext : u.text = u'.text)
    {p p' : Package} (hp : ws.packageOf? l = some p) (hp' : ws'.packageOf? l = some p')
    (hpackage : p.id = p'.id) (hr : r ∈ u.links.references) (hr' : r' ∈ u'.links.references)
    (hsite : r'.site = r.site) (he : r.target = some e) (hl : e.location = l) :
    (∃ e', r'.target = some e' ∧ e'.location = l ∧ e'.path = e.path) ↔
      ws.linker.IsBelowRoot l r.site.text e ∨
        ws'.linker.rootName? l = ws.linker.rootName? l := by
  have hmodel := (h.exists_root_of_reference hu hr).1
  obtain ⟨hvisible, hkind⟩ := (h.bounded hu hmodel hp).references r hr e he
  have hin : e ∈ ws.index.entriesIn l :=
    h.mem_entriesIn.mpr ⟨(Index.mem_visible_iff.mp hvisible).1, hl⟩
  have hspells : ws.linker.Spells l r.site.text e := by
    obtain ⟨q, -, hinside⟩ := h.inside hu hmodel
    rw [h.target_eq_resolveName hu hr hin hkind] at he
    exact hinside.spells_of_resolveName he
  obtain ⟨e', hin', hkind', hunique, hiff⟩ :=
    h'.exists_counterpart h hu hu' hmodel hmodel' htext hp hp' hpackage hin
  have hexpected : e'.kind = r'.site.target := by rw [hkind', hkind, hsite]
  rw [← hiff r.site.text hspells, ← hsite, ← h'.target_eq_some_iff hu' hr' hin' hexpected]
  constructor
  · rintro ⟨other, hother, hlocation, hpath⟩
    obtain ⟨hvisible', -⟩ := (h'.toSettled.bounded hu' hmodel' hp').references r' hr' other hother
    have hmem := h'.mem_entriesIn.mpr ⟨(Index.mem_visible_iff.mp hvisible').1, hlocation⟩
    rw [hother, (hunique other hmem).mp hpath]
  · intro hother
    exact ⟨e', hother, (h'.mem_entriesIn.mp hin').2, (hunique e' hin').mpr rfl⟩

/-- **What a file says of itself.**  Let two runs end with a model file of one text at one
location, in packages with one identifier, the second run being given no texts but those that
declare valid identifiers.  Then each reference of the file that means an element of the file
itself behind the first run means the element at the same path of the file behind the second
run if and only if it is written without the name of the root, or the root has the same name in
both indexes. -/
theorem run_own_targets (config config' : WorkspaceConfig) (operations operations' : List Operation)
    (htexts : ∀ operation ∈ operations', ∀ text ∈ operation.texts, DeclaresIdentifiers text) :
    ((Workspace.ofConfig config).run operations).GivesUnless (SplitBy operations) fun ws =>
      ((Workspace.ofConfig config').run operations').GivesUnless (SplitBy operations') fun ws' =>
      ∀ l u u' p p', ws.unit? l = some u → ws'.unit? l = some u' → u'.isModel = true →
        u.text = u'.text → ws.packageOf? l = some p → ws'.packageOf? l = some p' → p.id = p'.id →
        ∀ (i : Nat) r e, u.links.references[i]? = some r → r.target = some e → e.location = l →
          ∃ r', u'.links.references[i]? = some r' ∧ r'.path = r.path ∧ r'.site = r.site ∧
            ((∃ e', r'.target = some e' ∧ e'.location = l ∧ e'.path = e.path) ↔
              ws.linker.IsBelowRoot l r.site.text e ∨
                ws'.linker.rootName? l = ws.linker.rootName? l) := by
  refine ((Settled.ofConfig config).run operations).mono fun ws hsettled => ?_
  refine ((Complete.ofConfig config').run htexts).mono fun ws' hcomplete => ?_
  intro l u u' p p' hu hu' hmodel' htext hp hp' hpackage i r e hr he hl
  have hmem := List.mem_of_getElem? hr
  -- the same references are linked, in the same order
  have hplaces : u'.links.references.map (fun r => (r.path, r.site)) =
      u.links.references.map fun r => (r.path, r.site) := by
    obtain ⟨-, root, hroot, hlinks⟩ := hsettled.exists_root_of_reference hu hmem
    rw [htext, ← (hcomplete.wellFormed l u' hu').document_eq hmodel'] at hroot
    rw [hlinks, hcomplete.links_eq hu' hmodel', hroot]
    exact (Linker.places_link _ _ _).trans (Linker.places_link _ _ _).symm
  have hplace : (u'.links.references.map fun r => (r.path, r.site))[i]? =
      some (r.path, r.site) := by
    rw [hplaces, List.getElem?_map, hr, Option.map_some]
  rw [List.getElem?_map] at hplace
  obtain ⟨r', hr', heq⟩ := Option.map_eq_some_iff.mp hplace
  obtain ⟨hpath, hsite⟩ := Prod.mk.inj heq
  exact ⟨r', hr', hpath, hsite, hcomplete.own_target_iff hsettled hu hu' hmodel' htext hp hp'
    hpackage hmem (List.mem_of_getElem? hr') hsite he hl⟩

end Workspace

namespace Histories

open Change Workspace

/-- A diagram with a node and an edge, whose ends are written below the root and with its
name. -/
def diagramAt (path : String) : Location × String :=
  (⟨path⟩, "systemDiagram:\n  id: D\n  nodes:\n    - id: N\n  edges:\n    - id: E\n" ++
    "      sourceNode: N\n      targetNode: D.N\n")

/-- The diagram is the only one of its name. -/
def lone : List Change :=
  edits Disk.empty [manifestAt "/p/package.json", diagramAt "/p/b.cm"]

/-- Another file has declared its name before. -/
def latecomer : List Change :=
  edits Disk.empty [manifestAt "/p/package.json", diagramAt "/p/a.cm", diagramAt "/p/b.cm"]

/-- What is known of a file: its kind and text, its package, the name of its root, and for its
references what is written there and what it means. -/
structure FileView where
  isModel : Bool
  text : String
  package : String
  rootName : Option String
  references : List (String × Option (Location × ElementPath × String))
deriving DecidableEq

/-- What is known of a file behind some changes. -/
def viewOf (changes : List Change) (l : Location) : Option FileView :=
  (updates {} changes).toOption.bind fun ws => do
    let u ← ws.unit? l
    let p ← ws.packageOf? l
    return ⟨u.isModel, u.text, p.id, ws.linker.rootName? l, u.links.references.map fun r =>
      (r.site.text, r.target.map fun e => (e.location, e.path, e.localName))⟩

theorem exists_of_viewOf {changes : List Change} {l : Location} {view : FileView} {ws : Workspace}
    (hrun : updates {} changes = .ok ws) (h : viewOf changes l = some view) :
    ∃ u p, ws.unit? l = some u ∧ ws.packageOf? l = some p ∧ u.isModel = view.isModel ∧
      u.text = view.text ∧ p.id = view.package ∧ ws.linker.rootName? l = view.rootName ∧
      u.links.references.map (fun r =>
        (r.site.text, r.target.map fun e => (e.location, e.path, e.localName))) =
          view.references := by
  unfold viewOf at h
  rw [hrun] at h
  simp only [Except.toOption, Option.bind_some, Option.bind_eq_bind, Option.pure_def,
    Option.bind_eq_some_iff, Option.some.injEq] at h
  obtain ⟨u, hu, p, hp, rfl⟩ := h
  exact ⟨u, p, hu, hp, rfl, rfl, rfl, rfl, rfl⟩

/-- The node of the diagram. -/
def nodePath : ElementPath := [⟨"nodes", 0⟩]

/-- What is known of the diagram when it is alone. -/
theorem viewOf_lone : viewOf lone ⟨"/p/b.cm"⟩ = some ⟨true, (diagramAt "/p/b.cm").2, "p", some "D",
    [("N", some (⟨"/p/b.cm"⟩, nodePath, "D.N")), ("D.N", some (⟨"/p/b.cm"⟩, nodePath, "D.N"))]⟩ := by
  decide +kernel

/-- Behind a file that declares its name, the diagram is called otherwise, and what is written
with its name means the node of the other file. -/
theorem viewOf_latecomer : viewOf latecomer ⟨"/p/b.cm"⟩ =
    some ⟨true, (diagramAt "/p/b.cm").2, "p", some "D1",
      [("N", some (⟨"/p/b.cm"⟩, nodePath, "D1.N")),
        ("D.N", some (⟨"/p/a.cm"⟩, nodePath, "D.N"))]⟩ := by
  decide +kernel

theorem declaresIdentifiers_latecomer : ∀ operation ∈ latecomer.map Change.operation,
    ∀ text ∈ operation.texts, DeclaresIdentifiers text := by
  decide +kernel

/-- Of the two ends of the edge, the one that is written below the root means the same node in
both workspaces, and the one that is written with its name does not. -/
theorem run_own_targets_latecomer :
    ∃ ws ws' u u', updates {} lone = .ok ws ∧ updates {} latecomer = .ok ws' ∧
      ws.unit? ⟨"/p/b.cm"⟩ = some u ∧ ws'.unit? ⟨"/p/b.cm"⟩ = some u' ∧ u.text = u'.text ∧
      (∃ r' ∈ u'.links.references[0]?,
        ∃ e', r'.target = some e' ∧ e'.location = ⟨"/p/b.cm"⟩ ∧ e'.path = nodePath) ∧
      (∃ r' ∈ u'.links.references[1]?,
        ¬ ∃ e', r'.target = some e' ∧ e'.location = ⟨"/p/b.cm"⟩ ∧ e'.path = nodePath) := by
  obtain ⟨ws, hrun, hruns⟩ := (run_own_targets {} {} (lone.map Change.operation)
    (latecomer.map Change.operation) declaresIdentifiers_latecomer).exists_ok
    (not_splitBy (by decide +kernel))
  obtain ⟨ws', hrun', hown⟩ := hruns.exists_ok (not_splitBy (by decide +kernel))
  have hread : updates {} lone = .ok ws := hrun
  have hread' : updates {} latecomer = .ok ws' := hrun'
  obtain ⟨u, p, hu, hp, -, htext, hpackage, hroot, hreferences⟩ :=
    exists_of_viewOf hread viewOf_lone
  obtain ⟨u', p', hu', hp', hmodel', htext', hpackage', hroot', -⟩ :=
    exists_of_viewOf hread' viewOf_latecomer
  dsimp only at hroot hroot'
  have hend : ∀ {i : Nat} {text : String}, (u.links.references.map fun r =>
        (r.site.text, r.target.map fun e => (e.location, e.path, e.localName)))[i]? =
          some (text, some (⟨"/p/b.cm"⟩, nodePath, "D.N")) →
      ∃ r' ∈ u'.links.references[i]?,
        ((∃ e', r'.target = some e' ∧ e'.location = ⟨"/p/b.cm"⟩ ∧ e'.path = nodePath) ↔
          "D.N" = Name.nested "D" text) := by
    intro i text hfound
    rw [List.getElem?_map] at hfound
    obtain ⟨r, hr, heq⟩ := Option.map_eq_some_iff.mp hfound
    obtain ⟨hsite, htarget⟩ := Prod.mk.inj heq
    obtain ⟨e, he, hplace⟩ := Option.map_eq_some_iff.mp htarget
    obtain ⟨hl, hplace⟩ := Prod.mk.inj hplace
    obtain ⟨hpath, hname⟩ := Prod.mk.inj hplace
    obtain ⟨r', hr', -, -, hiff⟩ := hown ⟨"/p/b.cm"⟩ u u' p p' hu hu' hmodel'
      (htext.trans htext'.symm) hp hp' (hpackage.trans hpackage'.symm) i r e hr he hl
    refine ⟨r', hr', ?_⟩
    rw [hpath, hroot, hroot', hsite] at hiff
    rw [hiff, Linker.IsBelowRoot, hroot, hname]
    simp
  rw [hreferences] at hend
  obtain ⟨r', hr', hsame⟩ := @hend 0 "N" rfl
  obtain ⟨s', hs', hother⟩ := @hend 1 "D.N" rfl
  exact ⟨ws, ws', u, u', hread, hread', hu, hu', htext.trans htext'.symm,
    ⟨r', hr', hsame.mpr (by decide)⟩, s', hs', fun hfound => absurd (hother.mp hfound) (by decide)⟩

/-- In two packages of one name, with valid identifiers only, the same file says `D.N`: in the
first it means its own node, in the second that of another file. -/
theorem own_target_may_change :
    (∀ operation ∈ (lone ++ latecomer).map Change.operation, ∀ text ∈ operation.texts,
      DeclaresIdentifiers text) ∧
    viewOf lone ⟨"/p/b.cm"⟩ = some ⟨true, (diagramAt "/p/b.cm").2, "p", some "D",
      [("N", some (⟨"/p/b.cm"⟩, nodePath, "D.N")),
        ("D.N", some (⟨"/p/b.cm"⟩, nodePath, "D.N"))]⟩ ∧
    viewOf latecomer ⟨"/p/b.cm"⟩ = some ⟨true, (diagramAt "/p/b.cm").2, "p", some "D1",
      [("N", some (⟨"/p/b.cm"⟩, nodePath, "D1.N")),
        ("D.N", some (⟨"/p/a.cm"⟩, nodePath, "D.N"))]⟩ := by
  refine ⟨fun operation hmem => ?_, viewOf_lone, viewOf_latecomer⟩
  rw [List.map_append, List.mem_append] at hmem
  rcases hmem with hmem | hmem
  · revert operation
    decide +kernel
  · exact declaresIdentifiers_latecomer operation hmem

end Histories
end ModelWorkspace
