import ModelWorkspace.Proofs.Workspace.OneFile
import ModelWorkspace.Proofs.Workspace.Run

/-!
# The files that an update loads

An update loads tracked files only, and only model files are put off; so units and pending
files stand at tracked locations in every workspace that a run leads to.  Model files that are
asked for stay asked for while manifests are loaded.
-/

namespace ModelWorkspace
namespace Build

variable {old : Workspace} {b : Build} {disk : Disk} {l : Location}

theorem exists_scan_of_mem_newModels {m : Location} (h : l ∈ b.newModels disk m) :
    ∃ root, l ∈ b.workspace.scanned disk root :=
  exists_scan_of_mem_loadedManifest b (List.mem_of_mem_filter (List.mem_of_mem_filter h))

/-- What is found with a manifest is tracked. -/
theorem isTracked_of_mem_newModels {m : Location} (h : l ∈ b.newModels disk m) :
    b.workspace.config.isTracked l = true := by
  obtain ⟨root, hscan⟩ := exists_scan_of_mem_newModels h
  exact Workspace.isTracked_of_mem_scanned hscan

end Build

namespace Workspace

/-- Units and pending files stand where files are tracked, and what is pending is a model
file. -/
structure Admitted (ws : Workspace) : Prop where
  unit : ∀ l u, ws.units.get? l = some u → ws.config.isTracked l = true
  pending : ∀ l ∈ ws.pending.toList,
    ws.config.isTracked l = true ∧ ws.config.isManifest l = false

/-- What is known of the files that an update loads, behind its manifests. -/
structure LoadsFiles (ws : Workspace) (disk : Disk) (changed deleted : List Location)
    (last : Build) (models : LocationSet) : Prop where
  loaded : Build.loadedManifests disk (takePending (ws.begun disk deleted)).2
    ((ws.begun disk deleted).requestedModels disk changed)
    ((ws.begun disk deleted).queue disk changed) = (last, models)
  loading : Build.Loading ws last
  model : ∀ l ∈ models.toList, ws.config.isManifest l = false
  tracked : ∀ l ∈ models.toList, ws.config.isTracked l = true
  requested : ∀ l ∈ ((ws.begun disk deleted).requestedModels disk changed).toList,
    l ∈ models.toList

variable {ws : Workspace} {disk : Disk} {changed deleted : List Location} {l : Location}

theorem Settled.loading_begun (h : ws.Settled) (disk : Disk) (deleted : List Location) :
    Build.Loading ws (ws.begun disk deleted) :=
  (Build.Loading.start h).deleteAll _

/-- Where changed locations lead depends on the settings only. -/
theorem reached_congr {other : Workspace} (h : other.config = ws.config) (disk : Disk)
    (changed : List Location) : other.reached disk changed = ws.reached disk changed := by
  unfold reached reachedFrom scanned trackedAmong
  rw [h]

/-- What changed is to be loaded, and what is still pending behind the deletions. -/
theorem Settled.mem_requested_iff (h : ws.Settled) :
    l ∈ ((ws.begun disk deleted).requested disk changed).toList ↔
      l ∈ ws.reached disk changed ∨
        l ∈ (ws.begun disk deleted).workspace.pending.toList := by
  have hconfig : (takePending (ws.begun disk deleted)).2.workspace.config = ws.config :=
    (h.loading_begun disk deleted).config_eq
  unfold Build.requested
  rw [LocationSet.mem_toList_addAll, reached_congr hconfig]
  rfl

/-- Deletions ask for no parse again. -/
theorem mem_pending_of_begun (h : l ∈ (ws.begun disk deleted).workspace.pending.toList) :
    l ∈ ws.pending.toList := by
  by_contra hnot
  have hnone : ws.pending.get? l = none :=
    Option.eq_none_iff_forall_ne_some.mpr fun value hvalue =>
      hnot (LocationMap.mem_keys_iff.mpr ⟨value, hvalue⟩)
  have hleft : (ws.begun disk deleted).workspace.pending.get? l = none :=
    Build.deleteAll_induction (Q := fun b => b.workspace.pending.get? l = none)
      (fun _ other hb => Build.pending_delete hb other) (b := { workspace := ws }) hnone _
  obtain ⟨value, hvalue⟩ := LocationMap.mem_keys_iff.mp h
  rw [hleft] at hvalue
  cases hvalue

/-- Behind the manifests of an update all that is asked for is to be loaded, and nothing but
tracked model files is. -/
theorem Settled.exists_loadsFiles (h : ws.Settled) (hadmitted : ws.Admitted) (disk : Disk)
    (changed deleted : List Location) :
    ∃ last models, ws.LoadsFiles disk changed deleted last models := by
  obtain ⟨last, models, hload, hlast, hmodels⟩ := h.exists_loading disk changed deleted
  have hbegun := h.loading_begun disk deleted
  let P := fun (b : Build) (models : LocationSet) (_ : List Location) =>
    Build.Loading ws b ∧ (∀ l ∈ models.toList, ws.config.isTracked l = true) ∧
      ∀ l ∈ ((ws.begun disk deleted).requestedModels disk changed).toList,
        l ∈ models.toList
  have hstep : ∀ b models l waiting, ws.config.isManifest l = true → P b models (l :: waiting) →
      P (b.loadedManifest disk l).1 (models.addAll (b.newModels disk l)) waiting := by
    rintro b models m waiting hm ⟨hb, htracked, hrequested⟩
    refine ⟨hb.loadedManifest disk hm, fun l hl => ?_, fun l hl => ?_⟩
    · rcases LocationSet.mem_toList_addAll.mp hl with hnew | hold
      · rw [← hb.config_eq]
        exact Build.isTracked_of_mem_newModels hnew
      · exact htracked l hold
    · exact LocationSet.mem_toList_addAll.mpr (.inr (hrequested l hl))
  have hstart : P (takePending (ws.begun disk deleted)).2
      ((ws.begun disk deleted).requestedModels disk changed)
      ((ws.begun disk deleted).queue disk changed).waiting := by
    refine ⟨hbegun.congr rfl rfl rfl rfl rfl rfl rfl, fun l hl => ?_, fun _ hl => hl⟩
    rcases LocationSet.mem_toList_addAll.mp (Build.mem_requestedModels.mp hl).1 with
      hfile | hpending
    · have htracked := isTracked_of_mem_reached hfile
      rw [← hbegun.config_eq]
      exact htracked
    · exact (hadmitted.pending l (mem_pending_of_begun hpending)).1
  obtain ⟨-, htracked, hrequested⟩ := Build.loadedManifests_invariant (P := P)
    (fun _ _ _ _ _ hb => hb) hstep
    (fun l hl => hbegun.config_eq ▸ Build.isManifest_of_mem_queue hl) hload hstart
  exact ⟨last, models, hload, hlast, hmodels, htracked, hrequested⟩

namespace LoadsFiles

variable {last : Build} {models : LocationSet}

/-- A statement about a location that holds behind the deletions holds behind the manifests,
if the loading of a manifest there keeps it. -/
theorem behindManifests (h : ws.LoadsFiles disk changed deleted last models) {Q : Build → Prop}
    (hlocal : Build.IsLocal l Q) (hstart : Q (takePending (ws.begun disk deleted)).2)
    (hown : ws.config.isManifest l = true → ∀ c text, c.workspace.found disk l = .text text → Q c →
      Q (c.withManifest l text)) (hsettled : ws.Settled) : Q last.behindManifests := by
  refine hlocal.behindManifests (hlocal.loadedManifests hstart h.loaded fun hl => hown ?_)
  rw [← (hsettled.loading_begun disk deleted).config_eq]
  exact Build.isManifest_of_mem_queue hl

theorem prepared (h : ws.LoadsFiles disk changed deleted last models) (hsettled : ws.Settled) :
    Build.Prepared ws (last.loaded disk models) :=
  (h.loading.prepared hsettled).loadedModels disk h.model

theorem config_eq (h : ws.LoadsFiles disk changed deleted last models) (hsettled : ws.Settled) :
    (last.finished disk models).workspace.config = ws.config :=
  (Build.frame_finished last disk models).1.trans (h.prepared hsettled).config_eq

/-- While manifests are loaded nothing is pending. -/
theorem pending_behindManifests (h : ws.LoadsFiles disk changed deleted last models)
    (hsettled : ws.Settled) (l : Location) :
    last.behindManifests.workspace.pending.get? l = none :=
  h.behindManifests (Build.isLocal_notPending l) rfl (fun _ _ _ _ hb => hb) hsettled

/-- Behind the update only model files that it was to load are pending. -/
theorem mem_of_pending (h : ws.LoadsFiles disk changed deleted last models)
    (hsettled : ws.Settled)
    (hl : l ∈ (last.finished disk models).workspace.pending.toList) : l ∈ models.toList := by
  obtain ⟨value, hvalue⟩ := LocationMap.mem_keys_iff.mp hl
  rcases Build.outcome_or_agreeAt last disk models l with ⟨⟨hmem, -⟩, -⟩ | ⟨-, hagree⟩
  · exact hmem
  · have hnone := hagree.pending.trans (h.pending_behindManifests hsettled l)
    rw [hvalue] at hnone
    cases hnone

/-- Where files are not tracked there is no unit behind the update. -/
theorem unit_eq_none (h : ws.LoadsFiles disk changed deleted last models)
    (hsettled : ws.Settled) (hadmitted : ws.Admitted) (hl : ws.config.isTracked l = false) :
    (last.finished disk models).workspace.units.get? l = none := by
  have hlocal := Build.isLocal_noUnit l
  have hbefore : ws.units.get? l = none := by
    refine Option.eq_none_iff_forall_ne_some.mpr fun u hu => ?_
    rw [hadmitted.unit l u hu] at hl
    cases hl
  have hbegun : (ws.begun disk deleted).workspace.units.get? l = none :=
    hlocal.deleteAll (b := { workspace := ws }) hbefore _
  have hnone := h.behindManifests hlocal hbegun (fun hmanifest => by
    rw [Build.isTracked_of_isManifest hmanifest] at hl
    cases hl) hsettled
  rcases Build.outcome_or_agreeAt last disk models l with ⟨⟨hmem, -⟩, -⟩ | ⟨-, hagree⟩
  · rw [h.tracked l hmem] at hl
    cases hl
  · exact hagree.unit_eq_none_iff.mpr hnone

end LoadsFiles

namespace Admitted

theorem ofConfig (config : WorkspaceConfig) : (Workspace.ofConfig config).Admitted where
  unit := fun _ _ hu => nomatch hu
  pending := fun _ hl => absurd hl List.not_mem_nil

/-- Buffers and requests to call off a parse do not matter. -/
theorem congr (h : ws.Admitted) {other : Workspace} (hconfig : other.config = ws.config)
    (hunits : other.units = ws.units) (hpending : other.pending = ws.pending) :
    other.Admitted := by
  constructor
  · rw [hconfig, hunits]
    exact h.unit
  · rw [hconfig, hpending]
    exact h.pending

theorem updated (h : ws.Admitted) (hsettled : ws.Settled) (disk : Disk)
    (changed deleted : List Location) :
    (ws.updated disk changed deleted).workspace.Admitted := by
  obtain ⟨last, models, hloads⟩ := hsettled.exists_loadsFiles h disk changed deleted
  rw [updated_eq hloads.loaded]
  refine ⟨fun l u hu => ?_, fun l hl => ?_⟩
  · rw [hloads.config_eq hsettled]
    refine Bool.eq_true_of_not_eq_false fun hfalse => ?_
    rw [hloads.unit_eq_none hsettled h hfalse] at hu
    cases hu
  · have hmem := hloads.mem_of_pending hsettled hl
    rw [hloads.config_eq hsettled]
    exact ⟨hloads.tracked l hmem, hloads.model l hmem⟩

theorem apply (h : ws.Admitted) (hsettled : ws.Settled) (operation : Operation) :
    (operation.apply ws).GivesUnless operation.Splits fun next =>
      next.Settled ∧ next.Admitted := by
  refine Operation.apply_gives (Operation.perform_gives (fun requests => ?_)
    fun buffers disk changed deleted _ _ _ _ => ?_)
  · exact ⟨hsettled.congr rfl rfl rfl rfl, h.congr rfl rfl rfl⟩
  · have hbuffers : Settled { ws with buffers := buffers } := hsettled.congr rfl rfl rfl rfl
    have hsame : Admitted { ws with buffers := buffers } := h.congr rfl rfl rfl
    exact update_gives_of ⟨hbuffers.updated disk changed deleted,
      hsame.updated hbuffers disk changed deleted⟩

theorem run (h : ws.Admitted) (hsettled : ws.Settled) (operations : List Operation) :
    (ws.run operations).GivesUnless (SplitBy operations) fun last =>
      last.Settled ∧ last.Admitted :=
  run_induction (Q := fun ws => ws.Settled ∧ ws.Admitted)
    (fun _ operation _ hws => hws.2.apply hws.1 operation) ⟨hsettled, h⟩

end Admitted
end Workspace
end ModelWorkspace
