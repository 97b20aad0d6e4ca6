import ModelWorkspace.Proofs.Workspace.OpenBuffers

/-!
# What a report tells

Whoever shows what is known of model files has to show again what has changed, and learns of
it from the reports only.  What an update does not link again it leaves as it was; what is gone
was removed, by whichever stage, and is listed as deleted; and what is new was parsed in this
very update, so it was indexed and linked, too.
-/

namespace ModelWorkspace

open Attempt

namespace Workspace

/-- A model file is tracked at a location. -/
def TracksModel (ws : Workspace) (l : Location) : Prop :=
  ∃ u, ws.unit? l = some u ∧ u.isModel = true

/-- What has become of the model files of a workspace can be told from a report. -/
structure Tells (report : BuildReport) (ws next : Workspace) : Prop where
  /-- What stays and is not listed as linked is as it was. -/
  same : ∀ l, ws.TracksModel l → next.TracksModel l → l ∉ report.linked →
    next.unit? l = ws.unit? l ∧ next.index.entriesIn l = ws.index.entriesIn l
  gone : ∀ l, ws.TracksModel l → ¬ next.TracksModel l → l ∈ report.deleted
  new : ∀ l, ¬ ws.TracksModel l → next.TracksModel l →
    l ∈ report.parsed ∧ l ∈ report.indexed ∧ l ∈ report.linked
  linked_eq : report.linked = report.validated

/-- If nothing has happened, there is nothing to tell. -/
theorem Tells.of_same {ws next : Workspace} (hunits : next.units = ws.units)
    (hindex : next.index = ws.index) : Tells {} ws next := by
  have htracks : ∀ l, next.TracksModel l ↔ ws.TracksModel l := by
    intro l
    unfold TracksModel unit?
    rw [hunits]
  refine ⟨fun l _ _ _ => ?_, fun l hbefore hafter => absurd ((htracks l).mpr hbefore) hafter,
    fun l hbefore hafter => absurd ((htracks l).mp hafter) hbefore, rfl⟩
  unfold unit?
  rw [hunits, hindex]
  exact ⟨rfl, rfl⟩

end Workspace

namespace Build

variable {l : Location} {b c : Build} {disk : Disk}

/-! ## Linked and validated -/

theorem report_declaredPackage (b : Build) (disk : Disk) (l : Location) (m : Option Manifest) :
    (b.declaredPackage disk l m).1.report = b.report :=
  declaredPackage_induction (Q := fun next => next.report = b.report) rfl (fun _ => rfl) disk l m

/-- The files that are listed as linked are those listed as validated. -/
def LinksValidated (b : Build) : Prop :=
  b.report.linked = b.report.validated

namespace LinksValidated

theorem removeUnit (h : b.LinksValidated) (l : Location) : (b.removeUnit l).LinksValidated := by
  unfold LinksValidated Build.removeUnit
  dsimp only
  split <;> exact h

theorem removeAll (h : b.LinksValidated) (ls : List Location) :
    (ls.foldl Build.removeUnit b).LinksValidated :=
  removeAll_induction (Q := LinksValidated) (fun _ l hb => hb.removeUnit l) h ls

theorem delete (h : b.LinksValidated) (l : Location) : (b.delete l).LinksValidated :=
  delete_induction (Q := LinksValidated) (fun _ l hb => hb.removeUnit l) (fun _ _ hb => hb) h l

theorem deleteAll (h : b.LinksValidated) (ls : List Location) :
    (ls.foldl Build.delete b).LinksValidated :=
  deleteAll_induction (Q := LinksValidated) (fun _ l hb => hb.delete l) h ls

theorem loadedManifest (h : b.LinksValidated) (disk : Disk) (l : Location) :
    (b.loadedManifest disk l).1.LinksValidated := by
  rcases b.loadedManifest_cases disk l with ⟨-, heq⟩ | ⟨-, heq⟩ | ⟨text, -, heq⟩
  · simp only [heq]
    exact h.delete l
  · simp only [heq]
    exact h
  · rw [heq]
    unfold LinksValidated
    rw [report_declaredPackage]
    exact h

theorem loadedManifests (h : b.LinksValidated) {models found : LocationSet} {q : ManifestQueue}
    {last : Build} (hload : Build.loadedManifests disk b models q = (last, found)) :
    last.LinksValidated :=
  loadedManifests_invariant (W := fun _ => True) (P := fun b _ _ => b.LinksValidated)
    (fun _ _ _ _ _ hb => hb) (fun _ _ l _ _ hb => hb.loadedManifest disk l)
    (fun _ _ => trivial) hload h

theorem loadedModel (h : b.LinksValidated) (disk : Disk) (l : Location) :
    (Build.loadedModel disk b l).LinksValidated := by
  rcases loadedModel_cases disk b l with ⟨-, heq⟩ | ⟨-, heq⟩ | ⟨text, -, ⟨-, heq⟩ | ⟨-, heq⟩⟩
  · exact heq ▸ h.removeUnit l
  · rw [heq]
    exact h
  · rw [heq]
    exact h
  · rw [heq]
    exact h

theorem loaded (h : b.LinksValidated) (disk : Disk) (models : LocationSet) :
    (b.loaded disk models).LinksValidated :=
  loaded_induction (Q := LinksValidated) (fun _ l hb => hb.loadedModel disk l)
    (fun hb => hb.removeAll _) h models

/-- What is linked is validated at once. -/
theorem finished (h : b.LinksValidated) (disk : Disk) (models : LocationSet) :
    (b.finished disk models).LinksValidated := by
  have hloaded := h.loaded disk models
  have hlinked : (b.loaded disk models).indexed.linked.LinksValidated :=
    congrArg (· ++ _) hloaded
  obtain ⟨units, heq⟩ := b.exists_finished_eq disk models
  rw [heq]
  exact hlinked

end LinksValidated

/-! ## What is listed of one file -/

/-- A file that was tracked is tracked, or listed as deleted. -/
def ListsGone (l : Location) (b : Build) : Prop :=
  (b.workspace.units.get? l).isSome = true ∨ l ∈ b.report.deleted

/-- A file that was not tracked is not tracked, or listed as parsed. -/
def ListsNew (l : Location) (b : Build) : Prop :=
  b.workspace.units.get? l = none ∨ l ∈ b.report.parsed

theorem isLocal_listsGone (l : Location) : IsLocal l (ListsGone l) where
  congr := by
    intro b c hagree hb
    refine hb.imp (fun hunit => ?_) hagree.deleted.mpr
    rw [Option.isSome_iff_ne_none] at hunit ⊢
    exact fun hnone => hunit (hagree.unit_eq_none_iff.mp hnone)
  removeUnit := by
    intro b hb
    refine .inr ((mem_deleted_removeUnit b l l).mpr ?_)
    exact hb.elim (fun hunit => .inr ⟨rfl, hunit⟩) .inl

theorem isLocal_listsNew (l : Location) : IsLocal l (ListsNew l) where
  congr := fun hagree hb => hb.imp hagree.unit_eq_none_iff.mpr hagree.parsed.mpr
  removeUnit := fun {b} _ => .inl (get?_removeUnit b l).1

theorem Outcome.listsGone (h : Outcome disk l b c) (hb : ListsGone l b) : ListsGone l c := by
  have hlocal := isLocal_listsGone l
  cases h with
  | missing hread hagree => exact hlocal.congr hagree (hlocal.removeUnit hb)
  | passedOver hread hagree => exact hlocal.congr hagree hb
  | putOff text hread hcalled hagree => exact hlocal.congr hagree hb
  | stored text hread hcalled hagree =>
      refine hlocal.congr hagree (.inl ?_)
      have hput := unit_storeModel_self (b.beginParse l).2 l text (Document.ofText text)
      rw [hput]
      rfl

theorem Outcome.listsNew (h : Outcome disk l b c) (hb : ListsNew l b) : ListsNew l c := by
  have hlocal := isLocal_listsNew l
  cases h with
  | missing hread hagree => exact hlocal.congr hagree (hlocal.removeUnit hb)
  | passedOver hread hagree => exact hlocal.congr hagree hb
  | putOff text hread hcalled hagree => exact hlocal.congr hagree hb
  | stored text hread hcalled hagree => exact hlocal.congr hagree (.inr List.mem_concat_self)

/-! ## What the last stages list -/

/-- A model unit behind the last stage is what indexing and linking make of a unit. -/
theorem exists_of_model_finished {models : LocationSet} {v : SourceUnit}
    (hv : (b.finished disk models).workspace.units.get? l = some v) (hmodel : v.isModel = true) :
    ∃ u, (b.loaded disk models).workspace.units.get? l = some u ∧ u.isModel = true ∧
      v = (b.loaded disk models).unitBehind u := by
  have hget : ∀ {w}, (b.loaded disk models).indexed.linked.workspace.units.get? l = some w →
      w.isModel = true → ∃ u, (b.loaded disk models).workspace.units.get? l = some u ∧
        u.isModel = true ∧ w = (b.loaded disk models).unitBehind u := by
    intro w hw hkind
    rw [get?_linked] at hw
    obtain ⟨u, hu, rfl⟩ := Option.map_eq_some_iff.mp hw
    exact ⟨u, hu, (sameSource_unitBehind _ u).isModel_eq.symm.trans hkind, rfl⟩
  unfold finished at hv
  dsimp only at hv
  split at hv
  · -- finding the diagnostics of manifests again leaves model files alone
    rw [get?_refreshManifests] at hv
    obtain ⟨w, hw, rfl⟩ := Option.map_eq_some_iff.mp hv
    have hkind : w.isModel = true := by
      rw [← (sameContent_refreshedUnit _ w).sameSource.isModel_eq]
      exact hmodel
    have hsame : refreshedUnit (b.loaded disk models).indexed.linked.workspace.packages.problems w =
        w := by
      refine if_neg ?_
      rw [SourceUnit.isManifest_eq_not_isModel, hkind]
      exact Bool.false_ne_true
    rw [hsame]
    exact hget hw hkind
  · exact hget hv hmodel

theorem report_finished (b : Build) (disk : Disk) (models : LocationSet) :
    (b.finished disk models).report = (b.loaded disk models).indexed.linked.report := by
  obtain ⟨units, heq⟩ := b.exists_finished_eq disk models
  rw [heq]

/-- What has to be linked is listed as linked. -/
theorem mem_linked_of_needsLink {old : Workspace} {u : SourceUnit} (h : Loading old b)
    (hu : b.workspace.units.get? l = some u)
    (hneeds : b.indexed.needsLink b.indexed.affected (indexedUnit u) = true) :
    l ∈ b.indexed.linked.report.linked := by
  have hindexed : b.indexed.workspace.units.get? l = some (indexedUnit u) := by
    refine (LocationMap.get?_map _ _ _).trans ?_
    rw [hu]
    rfl
  have hlocation : (indexedUnit u).location = l := by
    rw [← (h.wellFormed l u hu).location_eq]
    unfold indexedUnit
    split <;> rfl
  refine List.mem_append_right _ (List.mem_map.mpr ⟨indexedUnit u, ?_, hlocation⟩)
  exact List.mem_filter.mpr ⟨LocationMap.mem_values_iff.mpr ⟨l, hindexed⟩, hneeds⟩

/-- What waits to be indexed is listed as indexed. -/
theorem mem_indexed_of_ready {old : Workspace} {u : SourceUnit} (h : Loading old b)
    (hu : b.workspace.units.get? l = some u) (hready : isReady u = true) :
    l ∈ b.indexed.linked.report.indexed :=
  List.mem_append_right _ (h.mem_readyLocations_iff.mpr ⟨u, hu, hready⟩)

end Build

namespace Workspace

variable {ws : Workspace} {disk : Disk} {changed deleted : List Location} {l : Location}
  {last : Build} {models : LocationSet}

namespace LoadsFiles

theorem listsGone (h : ws.LoadsFiles disk changed deleted last models) (hsettled : ws.Settled)
    (hbefore : (ws.unit? l).isSome = true) : (last.finished disk models).ListsGone l := by
  have hlocal := Build.isLocal_listsGone l
  have hstart : Build.ListsGone l { workspace := ws } := .inl hbefore
  have hbehind : Build.ListsGone l last.behindManifests :=
    h.behindManifests hlocal (hlocal.deleteAll hstart (deleted.map disk.canonical))
      (fun _ c text _ _ => .inl (by
        have hput := Build.unit_withManifest_self c l text
        rw [hput]
        rfl)) hsettled
  rcases Build.outcome_or_agreeAt last disk models l with ⟨-, houtcome⟩ | ⟨-, hagree⟩
  · exact houtcome.listsGone hbehind
  · exact hlocal.congr hagree hbehind

theorem listsNew (h : ws.LoadsFiles disk changed deleted last models) (hsettled : ws.Settled)
    (hbefore : ws.unit? l = none) : (last.finished disk models).ListsNew l := by
  have hlocal := Build.isLocal_listsNew l
  have hstart : Build.ListsNew l { workspace := ws } := .inl hbefore
  have hbehind : Build.ListsNew l last.behindManifests :=
    h.behindManifests hlocal (hlocal.deleteAll hstart (deleted.map disk.canonical))
      (fun _ _ _ _ _ => .inr List.mem_concat_self) hsettled
  rcases Build.outcome_or_agreeAt last disk models l with ⟨-, houtcome⟩ | ⟨-, hagree⟩
  · exact houtcome.listsNew hbehind
  · exact hlocal.congr hagree hbehind

/-- The report of an update tells what has become of the model files. -/
theorem tells (h : ws.LoadsFiles disk changed deleted last models) (hsettled : ws.Settled) :
    Tells (last.finished disk models).report ws (last.finished disk models).workspace := by
  have hprepared := h.prepared hsettled
  have hnext := h.loading.settled_finished hsettled disk h.model
  have hindex := (Build.frame_finished last disk models).2.2.1
  have hreport := Build.report_finished last disk models
  exact
    { same := by
        rintro l - ⟨v, hv, hkind⟩ hlinked
        obtain ⟨u, hu, hmodel, rfl⟩ := Build.exists_of_model_finished hv hkind
        rw [hreport] at hlinked
        have hneeds : ¬ (last.loaded disk models).indexed.needsLink
            (last.loaded disk models).indexed.affected (Build.indexedUnit u) = true :=
          fun hneeds => hlinked (Build.mem_linked_of_needsLink hprepared.toLoading hu hneeds)
        -- what is ready would be linked, so the unit has been here before
        rcases hprepared.ready_or_old hu hmodel with hready | ⟨hready, hchanged, htouched, hbefore⟩
        · exact absurd (Build.needsLink_of_ready _ hready) hneeds
        · have hindexed : Build.indexedUnit u = u :=
            if_neg (by rw [hready]; exact Bool.false_ne_true)
          have hsame : (last.loaded disk models).unitBehind u = u :=
            (if_neg hneeds).trans hindexed
          refine ⟨?_, ?_⟩
          · rw [hv, hsame]
            exact hbefore.symm
          · rw [hindex]
            exact hprepared.entriesIn_of_not_ready hsettled hu hready htouched
      gone := by
        rintro l ⟨u, hu, hmodel⟩ hgone
        have hbefore : (ws.unit? l).isSome = true := by
          rw [hu]
          rfl
        refine (h.listsGone hsettled hbefore).resolve_left fun hunit => hgone ?_
        -- the location says whether a unit is a model file
        obtain ⟨v, hv⟩ := Option.isSome_iff_exists.mp hunit
        refine ⟨v, hv, ?_⟩
        rw [(hnext.wellFormed l v hv).isModel_eq, h.config_eq hsettled,
          ← (hsettled.wellFormed l u hu).isModel_eq, hmodel]
      new := by
        rintro l hbefore ⟨v, hv, hkind⟩
        obtain ⟨u, hu, hmodel, rfl⟩ := Build.exists_of_model_finished hv hkind
        have hnone : ws.unit? l = none := by
          refine Option.eq_none_iff_forall_ne_some.mpr fun w hw => hbefore ⟨w, hw, ?_⟩
          rw [(hsettled.wellFormed l w hw).isModel_eq, ← h.config_eq hsettled,
            ← (hnext.wellFormed l _ hv).isModel_eq, hkind]
        have hparsed : l ∈ (last.finished disk models).report.parsed := by
          refine (h.listsNew hsettled hnone).resolve_left fun habsent => ?_
          have hpresent := hv.symm.trans habsent
          cases hpresent
        have hready : Build.isReady u = true := by
          refine (hprepared.ready_or_old hu hmodel).resolve_right fun hold => ?_
          have hpresent := hold.2.2.2.symm.trans hnone
          cases hpresent
        refine ⟨hparsed, ?_, ?_⟩
        · rw [hreport]
          exact Build.mem_indexed_of_ready hprepared.toLoading hu hready
        · rw [hreport]
          exact Build.mem_linked_of_needsLink hprepared.toLoading hu
            (Build.needsLink_of_ready _ hready)
      linked_eq := by
        have hbegun : (ws.begun disk deleted).LinksValidated :=
          Build.LinksValidated.deleteAll (b := { workspace := ws }) rfl _
        have htaken : (takePending (ws.begun disk deleted)).2.LinksValidated := hbegun
        exact (htaken.loadedManifests h.loaded).finished disk models }

end LoadsFiles

/-- **A report misses no model file.**  Behind every run, the report of whatever is done next
tells of every model file that was tracked before or is tracked behind it: if it was and is
tracked and is not listed as linked, its unit and its entries are the very same; if it is gone,
it is listed as deleted; if it is new, it is listed as parsed, as indexed and as linked.  And
what is listed as linked is listed as validated. -/
theorem run_reports_complete (config : WorkspaceConfig) (operations : List Operation) :
    ((Workspace.ofConfig config).run operations).GivesUnless (SplitBy operations) fun ws =>
      ∀ operation : Operation,
        (operation.perform ws).GivesUnless operation.Splits fun (report, next) =>
          Tells report ws next := by
  refine ((Admitted.ofConfig config).run (Settled.ofConfig config) operations).mono ?_
  rintro ws ⟨hsettled, hadmitted⟩ operation
  refine Operation.perform_gives (fun _ => .of_same rfl rfl) ?_
  intro buffers disk changed deleted _ _ _ _
  -- buffers decide what is read, and are no part of what is told
  have hstart : Settled { ws with buffers := buffers } := hsettled.congr rfl rfl rfl rfl
  have hsame : Admitted { ws with buffers := buffers } := hadmitted.congr rfl rfl rfl
  obtain ⟨last, models, hloads⟩ := hstart.exists_loadsFiles hsame disk changed deleted
  refine update_gives_of ?_
  rw [updated_eq hloads.loaded]
  obtain ⟨hkept, hgone, hnew, hlinked⟩ := hloads.tells hstart
  exact ⟨hkept, hgone, hnew, hlinked⟩

end Workspace
end ModelWorkspace
