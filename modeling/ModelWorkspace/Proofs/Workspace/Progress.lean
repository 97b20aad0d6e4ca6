import ModelWorkspace.Proofs.Workspace.Mirror
import ModelWorkspace.Proofs.Workspace.Run

/-!
# Updates come to an end

The queue of manifests grows while it is worked off: a manifest may declare a package whose
root holds further manifests.  Still no manifest is loaded twice, because what starts to
wait leaves those that have not been seen, and nothing comes back to them.  So there are at
most as many loads as manifests that were asked for or are on the disk; and nothing is
passed over, because everything that is found is on the disk.

Behind the manifests every stage takes each unit through the steps of its lifecycle, so an
update succeeds and leaves all units validated.  Nothing but a location that is cut within a
character can stop it, and without an alias for the root no location is.
-/

namespace ModelWorkspace

namespace ManifestQueue

/-- The manifests of a queue: those that wait, and those that may be found. -/
def all (q : ManifestQueue) : List Location :=
  q.waiting ++ q.unseen

/-- Offering files to a queue moves manifests about. -/
theorem all_offer_perm (q : ManifestQueue) (found : List Location) :
    (q.offer found).all.Perm q.all := by
  let found? := fun l => found.contains l
  have hseen : ((q.unseen.filter found?).reverse ++ q.waiting).Perm
      (q.waiting ++ q.unseen.filter found?) :=
    (List.perm_append_comm).trans ((List.reverse_perm _).append_left q.waiting)
  have hsplit : (q.unseen.filter found? ++ q.unseen.filter fun l => !found? l).Perm q.unseen :=
    List.filter_append_perm found? q.unseen
  refine (hseen.append_right (q.unseen.filter fun l => !found? l)).trans ?_
  rw [List.append_assoc]
  exact hsplit.append_left q.waiting

/-- What is found waits, unless it has been seen before. -/
theorem mem_waiting_offer {q : ManifestQueue} {found : List Location} {l : Location}
    (h : l ∈ q.all) (hfound : l ∈ q.waiting ∨ l ∈ found) : l ∈ (q.offer found).waiting := by
  rcases List.mem_append.mp h with hwaiting | hunseen
  · exact List.mem_append_right _ hwaiting
  · rcases hfound with hwaiting | hfound
    · exact List.mem_append_right _ hwaiting
    · refine List.mem_append_left _ (List.mem_reverse.mpr (List.mem_filter.mpr ⟨hunseen, ?_⟩))
      exact List.contains_iff_mem.mpr hfound

/-- At the start a queue knows of all manifests on the disk. -/
theorem mem_all_ofDisk {config : WorkspaceConfig} {disk : Disk} (manifests : List Location)
    {m : Location} (hm : config.isManifest m = true)
    (hdisk : m ∈ disk.files.keys.map disk.canonical) : m ∈ (ofDisk config disk manifests).all := by
  by_cases hasked : m ∈ manifests
  · exact List.mem_append_left _ (List.mem_reverse.mpr hasked)
  · refine List.mem_append_right _ (List.mem_filter.mpr ⟨?_, ?_⟩)
    · exact LocationSet.mem_toList_ofList.mpr hdisk
    · rw [hm, Bool.true_and, Bool.not_eq_true', ← Bool.not_eq_true, List.contains_iff_mem]
      exact hasked

/-- At the start no manifest is in a queue twice. -/
theorem nodup_all_ofDisk (config : WorkspaceConfig) (disk : Disk) {manifests : List Location}
    (h : manifests.Nodup) : (ofDisk config disk manifests).all.Nodup := by
  refine List.nodup_append'.mpr ⟨List.nodup_reverse.mpr h,
    (LocationMap.nodup_keys _).filter _, fun l hwaiting hunseen => ?_⟩
  obtain ⟨-, hnew⟩ := Bool.and_eq_true_iff.mp (List.mem_filter.mp hunseen).2
  rw [List.contains_iff_mem.mpr (List.mem_reverse.mp hwaiting)] at hnew
  cases hnew

end ManifestQueue

namespace Build

variable {b : Build} {disk : Disk} {q : ManifestQueue}

/-! ## The order of loading -/

/-- The build behind the loading of some manifests, one after the other. -/
def behind (disk : Disk) (b : Build) (order : List Location) : Build :=
  order.foldl (fun b l => (b.loadedManifest disk l).1) b

/-- Loads one manifest, and adds the model files that are found to those to be loaded. -/
def loadNext (disk : Disk) (state : Build × LocationSet) (l : Location) :
    Attempt (Build × LocationSet) := do
  let (b, found) ← state.1.loadManifest disk l
  let new := found.filter fun l => !b.workspace.units.contains l
  return (b, state.2.addAll (new.filter fun l => !b.workspace.config.isManifest l))

/-- The manifests that the loop over a queue loads, in order. -/
def loadOrder (disk : Disk) (b : Build) (q : ManifestQueue) : List Location :=
  match q with
  | ⟨[], _⟩ => []
  | ⟨l :: waiting, unseen⟩ =>
    l :: loadOrder disk (b.loadedManifest disk l).1
      (ManifestQueue.offer ⟨waiting, unseen⟩ (b.newFiles disk l))
termination_by q.bound
decreasing_by
  rw [ManifestQueue.bound_offer]
  simp [ManifestQueue.bound]

/-- The loop loads these manifests, each one once for every time it is in the order. -/
theorem loadManifests_eq_foldlM (disk : Disk) (b : Build) (models : LocationSet)
    (q : ManifestQueue) :
    loadManifests disk b models q = (loadOrder disk b q).foldlM (loadNext disk) (b, models) := by
  induction b, q using loadOrder.induct disk generalizing models with
  | case1 b unseen =>
      rw [loadManifests, loadOrder]
      rfl
  | case2 b l waiting unseen ih =>
      rw [loadManifests, loadOrder, List.foldlM_cons]
      unfold loadNext
      rcases b.loadManifest_gives disk l with ⟨_, hload, rfl⟩ | ⟨place, hload, -⟩
      · rw [hload]
        exact ih _
      · rw [hload]
        rfl

/-- What is loaded has waited in the queue or was found, and was there once for each load. -/
theorem loadOrder_subperm (disk : Disk) (b : Build) (q : ManifestQueue) :
    (loadOrder disk b q).Subperm q.all := by
  induction b, q using loadOrder.induct disk with
  | case1 b unseen =>
      rw [loadOrder]
      exact List.nil_subperm
  | case2 b l waiting unseen ih =>
      -- one manifest leaves the queue, the others are moved about
      rw [loadOrder]
      refine (List.subperm_cons l).mpr (ih.trans ?_)
      exact (ManifestQueue.all_offer_perm ⟨waiting, unseen⟩ _).subperm

/-- No manifest is loaded twice. -/
theorem nodup_loadOrder (h : q.all.Nodup) : (loadOrder disk b q).Nodup := by
  obtain ⟨order, hperm, hsub⟩ := loadOrder_subperm disk b q
  exact hperm.nodup_iff.mp (h.sublist hsub)

/-- Everything that waits is loaded. -/
theorem mem_loadOrder_of_waiting {l : Location} (h : l ∈ q.waiting) :
    l ∈ loadOrder disk b q := by
  induction b, q using loadOrder.induct disk with
  | case1 b unseen => exact absurd h List.not_mem_nil
  | case2 b first waiting unseen ih =>
      rw [loadOrder]
      rcases List.mem_cons.mp h with rfl | hlater
      · exact List.mem_cons_self
      · exact List.mem_cons_of_mem _ (ih (List.mem_append_right _ hlater))

/-- What is found is on the disk. -/
theorem mem_disk_of_mem_newFiles {l found : Location} (h : found ∈ b.newFiles disk l) :
    found ∈ disk.files.keys.map disk.canonical := by
  obtain ⟨root, hscan⟩ := exists_scan_of_mem_loadedManifest b (List.mem_of_mem_filter h)
  exact Disk.mem_of_mem_scan hscan

/-- Everything that is found on the way is loaded if the queue knows of it. -/
theorem mem_loadOrder_of_found {l found : Location} {earlier later : List Location}
    (horder : loadOrder disk b q = earlier ++ l :: later) (hall : found ∈ q.all)
    (hfound : found ∈ (behind disk b earlier).newFiles disk l) :
    found ∈ loadOrder disk b q := by
  induction b, q using loadOrder.induct disk generalizing earlier with
  | case1 b unseen =>
      rw [loadOrder] at horder
      exact absurd horder.symm (List.append_ne_nil_of_right_ne_nil _ (List.cons_ne_nil _ _))
  | case2 b first waiting unseen ih =>
      rw [loadOrder] at horder ⊢
      by_cases heq : found = first
      · rw [heq]
        exact List.mem_cons_self
      · have hrest : found ∈ ManifestQueue.all ⟨waiting, unseen⟩ :=
          (List.mem_cons.mp hall).resolve_left heq
        refine List.mem_cons_of_mem first ?_
        cases earlier with
        | nil =>
            -- the first load finds the file, so it waits from then on
            obtain ⟨rfl, -⟩ := List.cons.inj horder
            exact mem_loadOrder_of_waiting
              (ManifestQueue.mem_waiting_offer hrest (Or.inr hfound))
        | cons other earlier =>
            obtain ⟨rfl, htail⟩ := List.cons.inj horder
            exact ih htail ((ManifestQueue.all_offer_perm _ _).mem_iff.mpr hrest) hfound

end Build

namespace Workspace

variable {ws : Workspace} {disk : Disk} {changed deleted : List Location}

/-! ## Updates -/

/-- The manifests that an update loads, in order. -/
def manifestOrder (ws : Workspace) (disk : Disk) (changed deleted : List Location) :
    List Location :=
  let b := ws.begun disk deleted
  Build.loadOrder disk (takePending b).2 (b.queue disk changed)

theorem nodup_manifestOrder (ws : Workspace) (disk : Disk) (changed deleted : List Location) :
    (ws.manifestOrder disk changed deleted).Nodup :=
  Build.nodup_loadOrder
    (ManifestQueue.nodup_all_ofDisk _ disk ((LocationMap.nodup_keys _).filter _))

/-- A manifest that an update has to load: it is asked for, or the loading of another one
finds it and it is not tracked. -/
def NeedsManifest (ws : Workspace) (disk : Disk) (changed deleted : List Location)
    (m : Location) : Prop :=
  let begun := ws.begun disk deleted
  ws.config.isManifest m = true ∧
    (m ∈ (begun.requested disk changed).toList ∨
      ∃ earlier l later, ws.manifestOrder disk changed deleted = earlier ++ l :: later ∧
        m ∈ (Build.behind disk (takePending begun).2 earlier).newFiles disk l)

/-- An update passes no manifest over. -/
theorem Settled.mem_manifestOrder (h : ws.Settled) {m : Location}
    (hm : ws.NeedsManifest disk changed deleted m) :
    m ∈ ws.manifestOrder disk changed deleted := by
  obtain ⟨hkind, hneeded⟩ := hm
  have hconfig : (ws.begun disk deleted).workspace.config = ws.config :=
    ((Build.Loading.start h).deleteAll _).config_eq
  have hmanifest : (ws.begun disk deleted).workspace.config.isManifest m = true :=
    hconfig ▸ hkind
  rcases hneeded with hrequested | ⟨earlier, l, later, horder, hfound⟩
  · exact Build.mem_loadOrder_of_waiting
      (List.mem_reverse.mpr (List.mem_filter.mpr ⟨hrequested, hmanifest⟩))
  · exact Build.mem_loadOrder_of_found horder
      (ManifestQueue.mem_all_ofDisk _ hmanifest (Build.mem_disk_of_mem_newFiles hfound)) hfound

/-- **Updates finish.**  Behind every run, an update with any changes and deletions loads
manifests one after the other, none of them twice and none passed over, and succeeds, unless
its disk cuts a location within a character: no unit is asked for a step that it must not take.
Behind it every unit is validated. -/
theorem run_update_finishes (config : WorkspaceConfig) (operations : List Operation)
    (disk : Disk) (changed deleted : List Location) :
    ((Workspace.ofConfig config).run operations).GivesUnless (SplitBy operations) fun ws =>
      (let begun := ws.begun disk deleted;
      Build.loadManifests disk (takePending begun).2 (begun.requestedModels disk changed)
          (begun.queue disk changed) =
        (ws.manifestOrder disk changed deleted).foldlM (Build.loadNext disk)
          ((takePending begun).2, begun.requestedModels disk changed)) ∧
      (ws.manifestOrder disk changed deleted).Nodup ∧
      (∀ m, ws.NeedsManifest disk changed deleted m →
        m ∈ ws.manifestOrder disk changed deleted) ∧
      (ws.update disk changed deleted).GivesUnless disk.Splits (fun (_, next) =>
        ∀ l u, next.unit? l = some u → u.state = .validated) ∧
      (disk.aliases.get? ⟨"/"⟩ = none → ∃ report next,
        ws.update disk changed deleted = .ok (report, next) ∧
          ∀ l u, next.unit? l = some u → u.state = .validated) := by
  refine ((Settled.ofConfig config).run operations).mono fun ws hsettled => ?_
  have hupdate := (hsettled.update disk changed deleted).mono
    (Q := fun result => ∀ l u, result.2.unit? l = some u → u.state = .validated)
    fun result hnext l u hu => hnext.validated hu
  refine ⟨Build.loadManifests_eq_foldlM disk _ _ _,
    ws.nodup_manifestOrder disk changed deleted, fun _ hm => hsettled.mem_manifestOrder hm,
    hupdate, fun hroot => ?_⟩
  obtain ⟨result, hresult, hvalidated⟩ := hupdate.exists_ok (Disk.not_splits hroot)
  exact ⟨result.1, result.2, hresult, hvalidated⟩

/-- An alias for the root may keep an update from coming to an end. -/
theorem update_may_be_cut :
    ¬ ∀ (config : WorkspaceConfig) (disk : Disk) (changed deleted : List Location),
      ∃ report next,
        (Workspace.ofConfig config).update disk changed deleted = .ok (report, next) := by
  intro h
  obtain ⟨report, next, hok⟩ := h {} (Disk.empty.addAlias ⟨"/"⟩ ⟨"/t"⟩) [⟨"/é.cm"⟩] []
  have hcut : (Workspace.ofConfig {}).update (Disk.empty.addAlias ⟨"/"⟩ ⟨"/t"⟩) [⟨"/é.cm"⟩] [] =
      .error (.cut ⟨"/é.cm"⟩) := by rfl
  cases hcut.symm.trans hok

end Workspace
end ModelWorkspace
