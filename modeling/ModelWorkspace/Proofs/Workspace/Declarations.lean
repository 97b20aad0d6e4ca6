import ModelWorkspace.Proofs.Workspace.Registered

/-!
# The packages of a workspace

A run on resolved locations keeps manifests and packages in step, so every manifest that is
tracked and declares a package has it in the graph, and no package is there without its
manifest unless that manifest has no extension.  A manifest with an extension is deleted as
a file, so it takes its package along however it is reported gone.
-/

namespace ModelWorkspace
namespace Workspace

variable {ws : Workspace} {disk : Disk} {changed deleted : List Location} {m : Location}

/-! ## Updates -/

/-- An update keeps manifests and packages in step. -/
theorem Registered.updated (h : ws.Registered) (hsettled : ws.Settled) (hdisk : disk.IsResolved)
    (hchanged : ∀ l ∈ changed, l.IsResolved) (deleted : List Location) :
    (ws.updated disk changed deleted).workspace.Registered := by
  have hloading : Build.Loading ws (ws.begun disk deleted) :=
    (Build.Loading.start hsettled).deleteAll _
  have hbegun : (ws.begun disk deleted).workspace.Registered :=
    (Build.Loading.start hsettled).registered_deleteAll (b := { workspace := ws }) h _
  have htaken : (takePending (ws.begun disk deleted)).2.workspace.Registered := by
    refine hbegun.congr rfl rfl (fun m _ => ⟨id, SourceUnit.SameSource.refl, ?_⟩) fun _ _ => rfl
    rw [Option.map_id]
    rfl
  have hqueue : ∀ l, (l ∈ ((ws.begun disk deleted).queue disk changed).waiting ∨
      l ∈ ((ws.begun disk deleted).queue disk changed).unseen) →
      ws.config.isManifest l = true ∧ l.IsResolved := by
    intro l hl
    refine ⟨?_, Build.isResolved_of_mem_queue hbegun hdisk hchanged hl⟩
    rw [← hloading.config_eq]
    exact Build.isManifest_of_mem_queue hl
  let P := fun (b : Build) (_ : LocationSet) (_ : List Location) =>
    Build.Loading ws b ∧ b.workspace.Registered
  have hstep : ∀ b models l waiting, ws.config.isManifest l = true ∧ l.IsResolved →
      P b models (l :: waiting) →
        P (b.loadedManifest disk l).1 (models.addAll (b.newModels disk l)) waiting :=
    fun b _ l _ hl hb => ⟨hb.1.loadedManifest disk hl.1,
      Build.registered_loadedManifest hb.1 hb.2 disk hl.1 hl.2⟩
  obtain ⟨last, models, hload, hlast, hmodels⟩ := hsettled.exists_loading disk changed deleted
  have hstart : P (takePending (ws.begun disk deleted)).2
      ((ws.begun disk deleted).requestedModels disk changed)
      ((ws.begun disk deleted).queue disk changed).waiting :=
    ⟨hloading.congr rfl rfl rfl rfl rfl rfl rfl, htaken⟩
  obtain ⟨last', models', hload', -, hregistered⟩ :=
    Build.loadedManifests_induction_waiting (fun _ _ _ _ _ hb => hb) hstep hqueue hstart
  rw [hload] at hload'
  cases hload'
  rw [updated_eq hload]
  exact Build.registered_finished hlast hregistered disk hmodels

/-- An operation on resolved locations keeps manifests and packages in step. -/
theorem Registered.apply (h : ws.Registered) (hsettled : ws.Settled) {operation : Operation}
    (hresolved : operation.IsResolved) :
    (operation.apply ws).GivesUnless operation.Splits fun next =>
      next.Settled ∧ next.Registered := by
  have hsame : ∀ {other : Workspace}, other.config = ws.config → other.packages = ws.packages →
      other.units = ws.units → other.pending = ws.pending → other.Registered := by
    intro other hconfig hpackages hunits hpending
    refine h.congr hconfig hpackages
      (fun m _ => ⟨id, SourceUnit.SameSource.refl, ?_⟩) fun m hm => ?_
    · rw [hunits, Option.map_id]
      rfl
    · rw [hpending]
      exact h.not_pending m hm
  refine Operation.apply_gives (Operation.perform_gives (fun requests => ?_)
    fun buffers disk changed deleted given hgiven hcalled _ => ?_)
  · exact ⟨hsettled.congr rfl rfl rfl rfl, hsame rfl rfl rfl rfl⟩
  · obtain ⟨hdisk, hall⟩ := hresolved disk given hgiven
    have hchanged : ∀ l ∈ changed, l.IsResolved := by
      intro l hl
      rcases hcalled l hl with hl | hl
      · exact hall l hl
      · obtain ⟨raw, hraw, rfl⟩ := List.mem_map.mp hl
        exact hdisk.canonical (hall raw hraw)
    have hbuffers : Registered { ws with buffers := buffers } := hsame rfl rfl rfl rfl
    have hopened : Settled { ws with buffers := buffers } := hsettled.congr rfl rfl rfl rfl
    exact update_gives_of ⟨hopened.updated disk changed deleted,
      hbuffers.updated hopened hdisk hchanged deleted⟩

theorem Registered.run (h : ws.Registered) (hsettled : ws.Settled) {operations : List Operation}
    (hresolved : ∀ operation ∈ operations, operation.IsResolved) :
    (ws.run operations).GivesUnless (SplitBy operations) fun last =>
      last.Settled ∧ last.Registered :=
  run_induction (Q := fun ws => ws.Settled ∧ ws.Registered)
    (fun _ operation hmem hws => hws.2.apply hws.1 (hresolved operation hmem)) ⟨hsettled, h⟩

end Workspace

/-! ## Manifests that are gone -/

namespace Build

variable {b : Build} {disk : Disk} {m : Location}

/-- A deletion opens no buffer. -/
theorem buffers_delete (h : b.workspace.buffers.get? m = none) (l : Location) :
    (b.delete l).workspace.buffers.get? m = none := by
  refine delete_induction (Q := fun b => b.workspace.buffers.get? m = none)
    (fun b l hb => ?_) (fun _ _ hb => hb) h l
  refine (LocationMap.get?_erase _ l m).trans ?_
  rw [hb, ite_self]

theorem unit_delete_of_none (h : b.workspace.units.get? m = none) (l : Location) :
    (b.delete l).workspace.units.get? m = none := by
  refine Option.eq_none_iff_forall_ne_some.mpr fun u hu => ?_
  rw [unit_of_delete hu] at h
  cases h

/-- What is gone stays away while other locations are deleted. -/
theorem gone_deleteAll (hunit : b.workspace.units.get? m = none)
    (hbuffer : b.workspace.buffers.get? m = none) (ls : List Location) :
    (ls.foldl delete b).workspace.units.get? m = none ∧
      (ls.foldl delete b).workspace.buffers.get? m = none :=
  deleteAll_induction (Q := fun b => b.workspace.units.get? m = none ∧
      b.workspace.buffers.get? m = none)
    (fun _ l hb => ⟨unit_delete_of_none hb.1 l, buffers_delete hb.2 l⟩) ⟨hunit, hbuffer⟩ ls

/-- Of a file that is deleted neither the unit nor the buffer is left. -/
theorem gone_of_mem_deleted (hextension : m.extension.isSome = true) {ls : List Location}
    (hm : m ∈ ls) :
    (ls.foldl delete b).workspace.units.get? m = none ∧
      (ls.foldl delete b).workspace.buffers.get? m = none := by
  induction ls generalizing b with
  | nil => exact absurd hm List.not_mem_nil
  | cons l rest ih =>
      rw [List.foldl_cons]
      rcases List.mem_cons.mp hm with rfl | hrest
      · have hremoved : (b.removeUnit m).workspace.buffers.get? m = none :=
          (LocationMap.get?_erase b.workspace.buffers m m).trans (if_pos rfl)
        refine gone_deleteAll ?_ ?_ rest
        · rw [get?_delete, filesAt_of_file hextension, if_pos (List.mem_singleton_self m)]
        · rcases b.delete_cases m with heq | ⟨packages, heq⟩
          · rw [heq, filesAt_of_file hextension]
            exact hremoved
          · rw [heq, filesAt_of_file hextension]
            exact hremoved
      · exact ih hrest

/-- A manifest that is not there has no unit behind the loading of all manifests, if it had
none before or was to be loaded. -/
theorem unit_of_loadedManifests (hread : b.workspace.found disk m = .missing)
    {models found : LocationSet} {q : ManifestQueue} {last : Build}
    (hwhy : b.workspace.units.get? m = none ∨ m ∈ q.waiting)
    (hload : loadedManifests disk b models q = (last, found)) :
    last.workspace.units.get? m = none := by
  let P := fun (b : Build) (_ : LocationSet) (waiting : List Location) =>
    b.workspace.found disk m = .missing ∧ (b.workspace.units.get? m = none ∨ m ∈ waiting)
  have hstep : ∀ b models l waiting, True → P b models (l :: waiting) →
      P (b.loadedManifest disk l).1 (models.addAll (b.newModels disk l)) waiting := by
    rintro b models l waiting - ⟨hread, hwhy⟩
    obtain ⟨hbuffer, hdisk⟩ := Workspace.found_eq_missing_iff.mp hread
    rcases b.loadedManifest_cases disk l with ⟨-, heq⟩ | ⟨hunreadable, heq⟩ | ⟨text, htext, heq⟩
    · simp only [P, heq]
      refine ⟨Workspace.found_eq_missing_iff.mpr ⟨buffers_delete hbuffer l, hdisk⟩, ?_⟩
      rcases hwhy with hnone | hwaiting
      · exact Or.inl (unit_delete_of_none hnone l)
      · refine (List.mem_cons.mp hwaiting).imp_left fun hown => ?_
        refine Option.eq_none_iff_forall_ne_some.mpr fun u hu => ?_
        exact ((unit_delete_iff b l).mp hu).2.1 hown
    · have hne : m ≠ l := by
        rintro rfl
        cases hread.symm.trans hunreadable
      simp only [P, heq]
      exact ⟨hread, hwhy.imp_right fun hwaiting => (List.mem_cons.mp hwaiting).resolve_left hne⟩
    · have hne : m ≠ l := by
        rintro rfl
        cases hread.symm.trans htext
      obtain ⟨-, -, hbuffers⟩ :=
        frame_declaredPackage (b.withManifest l text) disk l (Manifest.ofText text).toOption
      rw [heq]
      refine ⟨Workspace.found_eq_missing_iff.mpr ⟨?_, hdisk⟩, ?_⟩
      · rw [hbuffers]
        exact hbuffer
      · rw [unit_declaredPackage, if_neg hne]
        exact hwhy.imp_right fun hwaiting => (List.mem_cons.mp hwaiting).resolve_left hne
  have hmono : ∀ b models waiting more, waiting ⊆ more → P b models waiting → P b models more :=
    fun _ _ _ _ hsub hb => ⟨hb.1, hb.2.imp_right fun hm => hsub hm⟩
  have hstart : P b models q.waiting := ⟨hread, hwhy⟩
  obtain ⟨last', found', hload', -, hlast⟩ :=
    loadedManifests_induction_waiting (W := fun _ => True) hmono hstep (fun _ _ => trivial) hstart
  rw [hload] at hload'
  cases hload'
  exact hlast.resolve_right List.not_mem_nil

end Build

namespace Workspace

variable {ws : Workspace} {disk : Disk} {changed deleted : List Location} {m : Location}

/-- A location is reported gone: it is called deleted and is no file on the disk, or it is
called changed and stands for no directory, no file and no buffer. -/
def ReportedGone (ws : Workspace) (disk : Disk) (changed deleted : List Location)
    (m : Location) : Prop :=
  (m ∈ deleted.map disk.canonical ∧ disk.files.get? (disk.canonical m) = none) ∨
    (m ∈ changed.map disk.canonical ∧ disk.holdsFiles m = false ∧ ws.found disk m = .missing)

/-- Behind the deletions of an update, a manifest that is reported gone has no text; it has
no unit either, or is to be loaded. -/
theorem ReportedGone.begun (h : ws.ReportedGone disk changed deleted m) (hsettled : ws.Settled)
    (hm : ws.config.isManifest m = true) (hextension : m.extension.isSome = true) :
    (ws.begun disk deleted).workspace.found disk m = .missing ∧
      ((ws.begun disk deleted).workspace.units.get? m = none ∨
        m ∈ ((ws.begun disk deleted).queue disk changed).waiting) := by
  rcases h with ⟨hmem, hfile⟩ | ⟨hmem, hdirectory, hread⟩
  · obtain ⟨hunit, hbuffer⟩ :=
      Build.gone_of_mem_deleted (b := { workspace := ws }) hextension hmem
    exact ⟨found_eq_missing_iff.mpr ⟨hbuffer, hfile⟩, Or.inl hunit⟩
  · obtain ⟨hbuffer, hfile⟩ := found_eq_missing_iff.mp hread
    have hleft : (ws.begun disk deleted).workspace.buffers.get? m = none :=
      Build.deleteAll_induction (Q := fun b => b.workspace.buffers.get? m = none)
        (fun _ l hb => Build.buffers_delete hb l) hbuffer _
    have hconfig : (ws.begun disk deleted).workspace.config = ws.config :=
      ((Build.Loading.start hsettled).deleteAll _).config_eq
    have hmanifest : (ws.begun disk deleted).workspace.config.isManifest m = true := by
      rw [hconfig]
      exact hm
    refine ⟨found_eq_missing_iff.mpr ⟨hleft, hfile⟩, Or.inr (List.mem_reverse.mpr ?_)⟩
    refine List.mem_filter.mpr ⟨LocationSet.mem_toList_addAll.mpr (Or.inl ?_), hmanifest⟩
    obtain ⟨raw, hraw, rfl⟩ := List.mem_map.mp hmem
    refine List.mem_flatMap.mpr ⟨raw, hraw, ?_⟩
    unfold reachedFrom
    dsimp only
    rw [hdirectory]
    have htracked : (takePending (ws.begun disk deleted)).2.workspace.config.isTracked
        (disk.canonical raw) = true := Build.isTracked_of_isManifest hmanifest
    rw [if_neg Bool.false_ne_true, if_pos htracked]
    exact List.mem_singleton_self _

/-- A manifest that is reported gone has no unit behind the update. -/
theorem ReportedGone.unit_eq_none (h : ws.ReportedGone disk changed deleted m)
    (hsettled : ws.Settled) (hm : ws.config.isManifest m = true)
    (hextension : m.extension.isSome = true) :
    (ws.updated disk changed deleted).workspace.units.get? m = none := by
  obtain ⟨hread, hwhy⟩ := h.begun hsettled hm hextension
  obtain ⟨last, models, hload, hlast, hmodels⟩ := hsettled.exists_loading disk changed deleted
  rw [updated_eq hload]
  have hnone : last.workspace.units.get? m = none :=
    Build.unit_of_loadedManifests (b := (takePending (ws.begun disk deleted)).2) hread hwhy hload
  exact hlast.get?_finished_eq_none disk hmodels hm hnone

/-! ## Runs -/

/-- What a unit yields is what it declares. -/
theorem Settled.declares_iff (h : ws.Settled) {p : Package} :
    ws.Declares m p ↔ ws.config.isManifest m = true ∧ ws.Yields m p := by
  have hkind : ∀ {u}, ws.units.get? m = some u → u.isManifest = ws.config.isManifest m := by
    intro u hu
    rw [SourceUnit.isManifest_eq_not_isModel, (h.wellFormed m u hu).isModel_eq, Bool.not_not]
  constructor
  · rintro ⟨u, manifest, hu, hmanifest, htext, hp⟩
    refine ⟨(hkind hu).symm.trans hmanifest, u, hu, ?_⟩
    rw [htext]
    exact hp
  · rintro ⟨hm, u, hu, hyields⟩
    obtain ⟨manifest, htext, hp⟩ := Option.bind_eq_some_iff.mp hyields
    refine ⟨u, manifest, hu, (hkind hu).trans hm, ?_, hp⟩
    cases hresult : Manifest.ofText u.text with
    | error fault =>
        rw [hresult] at htext
        cases htext
    | ok found =>
        rw [hresult] at htext
        cases htext
        rfl

/-- **Packages stand for manifests.**  Behind every run on resolved locations, a manifest that
is tracked and declares a package has it in the graph.  A package in the graph is declared by
the manifest that it names, unless that manifest has no extension and is not tracked.  And
once a manifest with an extension is reported gone, no package is left that names it. -/
theorem run_packages_declared (config : WorkspaceConfig) (operations : List Operation)
    (hresolved : ∀ operation ∈ operations, operation.IsResolved) :
    ((Workspace.ofConfig config).run operations).GivesUnless (SplitBy operations) fun ws =>
      (∀ m p, ws.Declares m p → p ∈ ws.packages.toList ∧ p.manifest = m) ∧
      (∀ p ∈ ws.packages.toList, ws.Declares p.manifest p ∨
        p.manifest.extension = none ∧ ws.unit? p.manifest = none) ∧
      ∀ disk changed deleted m, disk.IsResolved → (∀ l ∈ changed, l.IsResolved) →
        ws.config.isManifest m = true → m.extension.isSome = true →
        ws.ReportedGone disk changed deleted m →
          (ws.update disk changed deleted).GivesUnless disk.Splits fun (_, next) =>
            ∀ p ∈ next.packages.toList, p.manifest ≠ m := by
  refine ((Registered.ofConfig config).run (Settled.ofConfig config) hresolved).mono
    fun ws ⟨hsettled, hregistered⟩ => ⟨?_, ?_, ?_⟩
  · intro m p hdeclares
    obtain ⟨hm, u, hu, hyields⟩ := hsettled.declares_iff.mp hdeclares
    have hp := hregistered.package_of_manifest m p hm ⟨u, hu, hyields⟩
    exact ⟨LocationMap.mem_values_iff.mpr ⟨p.root, hp⟩, (Package.isDeclared_of_bind hyields).2.1⟩
  · intro p hp
    obtain ⟨root, hroot⟩ := LocationMap.mem_values_iff.mp hp
    obtain ⟨hm, -, hwhy⟩ := hregistered.manifest_of_package root p hroot
    exact hwhy.imp_left fun hyields => hsettled.declares_iff.mpr ⟨hm, hyields⟩
  · intro disk changed deleted m hdisk hchanged hm hextension hgone
    have hnone := hgone.unit_eq_none hsettled hm hextension
    refine update_gives_of fun p hp hown => ?_
    have hnext := hregistered.updated hsettled hdisk hchanged deleted
    obtain ⟨root, hroot⟩ := LocationMap.mem_values_iff.mp hp
    obtain ⟨-, -, ⟨u, hu, -⟩ | ⟨hnot, -⟩⟩ := hnext.manifest_of_package root p hroot
    · rw [hown, hnone] at hu
      cases hu
    · rw [← hown, hnot] at hextension
      cases hextension

end Workspace

namespace Histories

open Change Workspace

/-- A package inside another one. -/
def enclosing : List Change :=
  edits Disk.empty [manifestAt "/p/package.json", manifestAt "/p/q/package.json",
    entityAt "/p/q/a.cm" "A"]

theorem plain_enclosing : ∀ c ∈ enclosing, c.disk.Plain := by
  let places : List Location :=
    [⟨"/p/package.json"⟩, ⟨"/p/q/package.json"⟩, ⟨"/p/q/a.cm"⟩]
  have hpath : ∀ l ∈ places, l = Location.ofPath l.path := by decide +kernel
  have hapart : ∀ a ∈ places, ∀ b ∈ places, a.isBelow b = false := by decide +kernel
  refine plain_edits_empty hpath hapart ?_
  decide +kernel

theorem isResolved_enclosing :
    ∀ operation ∈ enclosing.map Change.operation, operation.IsResolved := by
  have hpath : ∀ c ∈ enclosing, ∀ l ∈ c.changed, l = Location.ofPath l.path := by decide +kernel
  intro operation hmem disk given hgiven
  obtain ⟨c, hc, rfl⟩ := List.mem_map.mp hmem
  cases hgiven
  exact ⟨(plain_enclosing c hc).isResolved,
    fun l hl => Location.IsPath.isResolved ⟨l.path, hpath c hc l hl⟩⟩

/-- The files of the two packages without the inner manifest. -/
def emptied : Disk :=
  (lastDisk Disk.empty enclosing).remove ⟨"/p/q/package.json"⟩

theorem run_packages_declared_enclosing :
    ∃ ws, updates {} enclosing = .ok ws ∧
      ws.packages.toList.map (·.manifest) = [⟨"/p/package.json"⟩, ⟨"/p/q/package.json"⟩] ∧
      (∀ p ∈ ws.packages.toList, ws.Declares p.manifest p) ∧
      ∃ report next, ws.update emptied [⟨"/p/q/package.json"⟩] [] = .ok (report, next) ∧
        ∀ p ∈ next.packages.toList, p.manifest ≠ ⟨"/p/q/package.json"⟩ := by
  obtain ⟨ws, hrun, -, hdeclared, hgone⟩ :=
    (run_packages_declared {} (enclosing.map Change.operation) isResolved_enclosing).exists_ok
      (not_splitBy (by decide +kernel))
  have hread : updates {} enclosing = .ok ws := hrun
  have hfacts : (updates {} enclosing).toOption.map (fun ws =>
      (ws.packages.toList.map (·.manifest), ws.config.isManifest ⟨"/p/q/package.json"⟩,
        ws.found emptied ⟨"/p/q/package.json"⟩)) =
        some ([⟨"/p/package.json"⟩, ⟨"/p/q/package.json"⟩], true, .missing) := by
    decide +kernel
  have heq := eq_of_updates hread hfacts
  simp only [Prod.mk.injEq] at heq
  obtain ⟨hmanifests, hm, hmissing⟩ := heq
  have hextension : (Location.mk "/p/q/package.json").extension.isSome = true := by
    decide
  have hdisk : emptied.IsResolved := by
    refine (plain_enclosing (enclosing.getLast (by decide)) ?_).isResolved.remove _
    exact List.getLast_mem _
  refine ⟨ws, hread, hmanifests, fun p hp => (hdeclared p hp).resolve_right ?_, ?_⟩
  · rintro ⟨hnone, -⟩
    have hmem : p.manifest ∈ ws.packages.toList.map (·.manifest) := List.mem_map_of_mem hp
    have hsome : ∀ m ∈ ws.packages.toList.map (·.manifest), m.extension.isSome = true := by
      rw [hmanifests]
      decide
    rw [← Option.not_isSome_iff_eq_none] at hnone
    exact hnone (hsome _ hmem)
  · have hchanged : ∀ l ∈ [(⟨"/p/q/package.json"⟩ : Location)], l.IsResolved := by
      intro l hl
      rw [List.mem_singleton.mp hl]
      exact Location.IsPath.isResolved ⟨"/p/q/package.json", by decide +kernel⟩
    have hreported : ws.ReportedGone emptied [⟨"/p/q/package.json"⟩] [] ⟨"/p/q/package.json"⟩ :=
      Or.inr ⟨by decide +kernel, by decide +kernel, hmissing⟩
    obtain ⟨⟨report, next⟩, hupdate, hnamed⟩ := (hgone emptied [⟨"/p/q/package.json"⟩] [] _ hdisk
      hchanged hm hextension hreported).exists_ok (Disk.not_splits_of_aliases rfl)
    exact ⟨report, next, hupdate, hnamed⟩

/-- A package whose manifest has no extension; then the manifest goes, and is reported. -/
def vanishing (changed deleted : List Location) : List Change :=
  let files := [manifestAt "/p/manifest", entityAt "/p/a.cm" "A"]
  let gone := (lastDisk Disk.empty (edits Disk.empty files)).remove ⟨"/p/manifest"⟩
  edits Disk.empty files ++ [⟨gone, changed, deleted⟩]

/-- A package stays in the graph without its manifest, whichever way that is reported gone. -/
theorem package_outlives_manifest :
    let config : WorkspaceConfig := { manifestName := "manifest" }
    let facts := fun (ws : Workspace) =>
      (ws.packages.toList.map (·.manifest), (ws.unit? ⟨"/p/manifest"⟩).isSome)
    (updates config (vanishing [] [⟨"/p/manifest"⟩])).toOption.map facts =
        some ([⟨"/p/manifest"⟩], false) ∧
      (updates config (vanishing [⟨"/p/manifest"⟩] [])).toOption.map facts =
        some ([⟨"/p/manifest"⟩], false) := by
  constructor
  · decide +kernel
  · decide +kernel

end Histories
end ModelWorkspace
