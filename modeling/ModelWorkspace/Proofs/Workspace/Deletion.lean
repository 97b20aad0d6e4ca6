import ModelWorkspace.Proofs.Workspace.Faithful
import ModelWorkspace.Proofs.Workspace.History

/-!
# Deleting a directory

A location that is gone cannot be asked what it was.  It is taken for a file if it has an
extension, and for a directory if not.  In the second case nothing below it stays: no unit,
no entry of the index, no package.  In the first case the file itself goes, and everything
else stays; so whoever deletes a directory whose name looks like that of a file keeps what
is below it.

An update that only deletes loads nothing, as long as no parse is waiting to be made up for.
What it leaves is therefore what the deletion leaves, and changed packages may only take
more units away.
-/

namespace ModelWorkspace
namespace Build

variable {b : Build}

/-! ## One deletion -/

theorem delete_of_directory {l : Location} (h : l.extension = none) :
    b.delete l = b.deleteDirectory l := by
  rw [delete, h, Option.isSome_none, if_neg Bool.false_ne_true]

/-- A file that declares no package is removed. -/
theorem delete_of_file {l : Location} (h : l.extension.isSome = true)
    (hmanifest : b.wasManifest l = false) : b.delete l = b.removeUnit l := by
  rw [delete, if_pos h, deleteFile, hmanifest, Bool.false_and]
  exact if_neg Bool.false_ne_true

/-! ## Nothing is loaded -/

/-- Deleting a location calls for no parse. -/
theorem pending_delete {other : Location} (h : b.workspace.pending.get? other = none)
    (l : Location) : (b.delete l).workspace.pending.get? other = none := by
  refine delete_induction (Q := fun b => b.workspace.pending.get? other = none)
    (fun b l hb => ?_) (fun _ _ hb => hb) h l
  refine (LocationMap.get?_erase _ l other).trans ?_
  rw [hb, ite_self]

/-- Without a pending parse and a changed location nothing is requested. -/
theorem toList_requested (h : ∀ l, b.workspace.pending.get? l = none) (disk : Disk) :
    (b.requested disk []).toList = [] := by
  refine List.eq_nil_iff_forall_not_mem.mpr fun l hl => ?_
  obtain hchanged | hpending := LocationSet.mem_toList_addAll.mp hl
  · exact absurd hchanged List.not_mem_nil
  · obtain ⟨value, hvalue⟩ := LocationMap.mem_keys_iff.mp hpending
    have hnone : b.workspace.pending.get? l = some value := hvalue
    rw [h] at hnone
    cases hnone

theorem loaded_of_nil {disk : Disk} {models : LocationSet} (h : models.toList = []) :
    b.loaded disk models = if b.packagesChanged then b.reset else b := by
  unfold loaded loadedModels owned
  rw [h]
  rfl

/-- A build that loads nothing ends behind what it has deleted. -/
theorem completed_eq_of_pending (h : ∀ l, b.workspace.pending.get? l = none) (disk : Disk) :
    ∃ models : LocationSet, models.toList = [] ∧
      b.completed disk [] = (Workspace.takePending b).2.finished disk models := by
  have hrequested := toList_requested h disk
  have hmanifests : b.requestedManifests disk [] = [] := by
    rw [requestedManifests, hrequested]
    rfl
  have hmodels : (b.requestedModels disk []).toList = [] := by
    refine List.eq_nil_iff_forall_not_mem.mpr fun l hl => ?_
    have hmem := (mem_requestedModels.mp hl).1
    rw [hrequested] at hmem
    cases hmem
  refine ⟨b.requestedModels disk [], hmodels, completed_eq ?_⟩
  have hqueue : b.queue disk [] = ⟨[], (b.queue disk []).unseen⟩ := by
    rw [queue, hmanifests]
    rfl
  rw [hqueue, loadedManifests]

/-! ## What is left -/

/-- What is behind a build that loads nothing was there before. -/
theorem unit_of_finished {disk : Disk} {models : LocationSet} (h : models.toList = [])
    {l : Location} {u : SourceUnit}
    (hu : (b.finished disk models).workspace.units.get? l = some u) :
    ∃ v, b.workspace.units.get? l = some v := by
  obtain ⟨f, -, hget⟩ := get?_finished b disk models l
  rw [hget, loaded_of_nil h] at hu
  obtain ⟨v, hv, -⟩ := Option.map_eq_some_iff.mp hu
  split at hv
  · obtain ⟨w, hw, -⟩ := get?_reset hv
    exact ⟨w, hw⟩
  · exact ⟨v, hv⟩

theorem packages_finished {disk : Disk} {models : LocationSet} (h : models.toList = []) :
    (b.finished disk models).workspace.packages = b.workspace.packages := by
  obtain ⟨-, hpackages, -⟩ := frame_finished b disk models
  rw [hpackages, loaded_of_nil h]
  split
  · exact (frame_removeAll b _).1
  · rfl

/-- As long as packages stay the same, all units do. -/
theorem isSome_unit_finished (disk : Disk) {models : LocationSet} (h : models.toList = [])
    (hchanged : b.packagesChanged = false) (l : Location) :
    ((b.finished disk models).workspace.units.get? l).isSome =
      (b.workspace.units.get? l).isSome := by
  obtain ⟨f, -, hget⟩ := get?_finished b disk models l
  rw [hget, loaded_of_nil h, hchanged, Option.isSome_map]
  rfl

end Build

namespace Workspace

/-- No unit, no entry of the index and no root of a package lies at a location or below
it. -/
structure EmptyWithin (ws : Workspace) (l : Location) : Prop where
  units : ∀ other u, ws.unit? other = some u → other.isWithin l = false
  entries : ∀ e ∈ ws.index.entries, e.location.isWithin l = false
  packages : ∀ p ∈ ws.packages.toList, p.root.isWithin l = false

/-- Everything at a location goes, and everything else stays. -/
structure LacksOnly (next ws : Workspace) (l : Location) : Prop where
  units : ∀ other, (next.unit? other).isSome = true ↔
    (ws.unit? other).isSome = true ∧ other ≠ l
  packages : next.packages = ws.packages

variable {ws : Workspace}

/-- An update that only deletes a location ends behind what it has deleted. -/
theorem updated_deleted_eq (hpending : ∀ l, ws.pending.get? l = none) (disk : Disk)
    (d : Location) :
    ∃ b models, b = Build.delete { workspace := ws } (disk.canonical d) ∧
      LocationSet.toList models = [] ∧
      ws.updated disk [] [d] = (takePending b).2.finished disk models := by
  have hbegun : ws.begun disk [d] =
      Build.delete { workspace := ws } (disk.canonical d) := by
    rw [begun, List.map_singleton, List.foldl_cons, List.foldl_nil]
  have hcalled : ∀ l, (Build.delete { workspace := ws } (disk.canonical d)).workspace.pending.get?
      l = none := fun l => Build.pending_delete (hpending l) _
  obtain ⟨models, hmodels, hcompleted⟩ := Build.completed_eq_of_pending hcalled disk
  refine ⟨_, models, rfl, hmodels, ?_⟩
  rw [updated, hbegun]
  exact hcompleted

/-- Behind the deletion of a directory nothing lies within it. -/
theorem Settled.emptyWithin_of_directory (h : ws.Settled)
    (hpending : ∀ l, ws.pending.get? l = none) (disk : Disk) {d : Location}
    (hd : (disk.canonical d).extension = none) :
    (ws.updated disk [] [d]).workspace.EmptyWithin (disk.canonical d) := by
  have hsettled := h.updated disk [] [d]
  obtain ⟨b, models, hb, hmodels, heq⟩ := updated_deleted_eq hpending disk d
  rw [heq] at hsettled ⊢
  have hunits : ∀ other u, ((takePending b).2.finished disk models).workspace.units.get?
      other = some u → other.isWithin (disk.canonical d) = false := by
    intro other u hu
    obtain ⟨v, hv⟩ := Build.unit_of_finished hmodels hu
    have hleft : b.workspace.units.get? other = some v := hv
    rw [hb] at hleft
    exact ((Build.unit_delete_iff _ _).mp hleft).2.2 hd
  refine ⟨hunits, ?_, ?_⟩
  · intro e he
    obtain ⟨u, hu, -⟩ := hsettled.tracked e he
    exact hunits e.location u hu
  · intro p hp
    obtain ⟨root, hroot⟩ := LocationMap.mem_values_iff.mp hp
    have hown : p.root = root := (hsettled.declared root p hroot).1
    rw [Build.packages_finished hmodels] at hroot
    have hleft : b.workspace.packages.packages.get? root = some p := hroot
    rw [hb, Build.delete_of_directory hd] at hleft
    rw [hown]
    exact ((Build.Loading.packages_deleteDirectory _).mp hleft).2

/-- Behind the deletion of a file that is no manifest, only this file is missing. -/
theorem Settled.lacksOnly_of_file (h : ws.Settled)
    (hpending : ∀ l, ws.pending.get? l = none) (disk : Disk) {d : Location}
    (hd : (disk.canonical d).extension.isSome = true)
    (hmanifest : ws.config.isManifest (disk.canonical d) = false) :
    (ws.updated disk [] [d]).workspace.LacksOnly ws (disk.canonical d) := by
  obtain ⟨b, models, hb, hmodels, heq⟩ := updated_deleted_eq hpending disk d
  have hfile : Build.wasManifest { workspace := ws } (disk.canonical d) = false :=
    ((Build.Loading.start h).wasManifest_eq _).trans hmanifest
  rw [Build.delete_of_file hd hfile] at hb
  rw [heq]
  have hchanged : b.packagesChanged = false := by
    rw [hb]
    rfl
  have hpackages : b.workspace.packages = ws.packages := by
    rw [hb]
    rfl
  have hget : ∀ other, b.workspace.units.get? other =
      if other = disk.canonical d then none else ws.units.get? other := by
    intro other
    rw [hb]
    exact LocationMap.get?_erase _ _ _
  refine ⟨fun other => ?_, (Build.packages_finished hmodels).trans hpackages⟩
  have htakenChanged : (takePending b).2.packagesChanged = false := hchanged
  have hunit := Build.isSome_unit_finished disk hmodels htakenChanged other
  have htaken : (takePending b).2.workspace.units.get? other = _ := hget other
  rw [unit?, hunit, htaken]
  split
  · rename_i heq
    simp [heq]
  · rename_i hne
    simp [unit?, hne]

/-- **What goes with a deleted location.**  In every workspace that a run leads to and in
which no parse is pending: if the location has no extension, nothing is left within it,
whatever it is called; if it has one and is not that of a manifest, nothing but the file at
the location itself goes. -/
theorem run_update_deleted (config : WorkspaceConfig) (operations : List Operation) :
    ((Workspace.ofConfig config).run operations).GivesUnless (SplitBy operations) fun ws =>
      (∀ l, ws.pending.get? l = none) → ∀ disk d,
        (ws.update disk [] [d]).GivesUnless disk.Splits fun (_, next) =>
          ((disk.canonical d).extension = none → next.EmptyWithin (disk.canonical d)) ∧
          ((disk.canonical d).extension.isSome = true →
            ws.config.isManifest (disk.canonical d) = false →
            next.LacksOnly ws (disk.canonical d)) := by
  refine ((Settled.ofConfig config).run operations).mono fun ws hsettled hpending disk d => ?_
  exact update_gives_of ⟨fun hd => hsettled.emptyWithin_of_directory hpending disk hd,
    fun hd hmanifest => hsettled.lacksOnly_of_file hpending disk hd hmanifest⟩

end Workspace

namespace Histories

open Workspace

/-- A package with a directory that holds an entity and another package. -/
def library (directory : String) : Change :=
  let files :=
    [manifestAt "/w/package.json", entityAt (directory ++ "/a.cm") "X",
      manifestAt (directory ++ "/q/package.json")]
  Change.ofDisk (Change.lastDisk Disk.empty (Change.edits Disk.empty files))

/-- What is known of a workspace that is read from a disk without being called off. -/
theorem pending_of_keys {ws : Workspace} {read : Attempt Workspace}
    (h : read.toOption.map (·.pending.keys) = some []) (hread : read = .ok ws) :
    ∀ l, ws.pending.get? l = none := by
  intro l
  rw [hread] at h
  have hkeys : ws.pending.keys = [] := Option.some.inj h
  rw [← Option.not_isSome_iff_eq_none]
  intro hsome
  obtain ⟨value, hvalue⟩ := Option.isSome_iff_exists.mp hsome
  have hmem : l ∈ ws.pending.keys := LocationMap.mem_keys_iff.mpr ⟨value, hvalue⟩
  rw [hkeys] at hmem
  cases hmem

theorem run_update_deleted_library :
    ∃ ws, updates {} [library "/w/lib"] = .ok ws ∧
      (ws.unit? ⟨"/w/lib/a.cm"⟩).isSome = true ∧
      (∃ report next, ws.update ((library "/w/lib").disk.remove ⟨"/w/lib"⟩) [] [⟨"/w/lib"⟩] =
        .ok (report, next) ∧ next.EmptyWithin ⟨"/w/lib"⟩) ∧
      ∃ report next, ws.update ((library "/w/lib").disk.remove ⟨"/w/lib/a.cm"⟩) []
        [⟨"/w/lib/a.cm"⟩] = .ok (report, next) ∧ next.LacksOnly ws ⟨"/w/lib/a.cm"⟩ := by
  obtain ⟨ws, hrun, hdeleted⟩ := (run_update_deleted {} [(library "/w/lib").operation]).exists_ok
    (not_splitBy (by decide +kernel))
  have hread : updates {} [library "/w/lib"] = .ok ws := hrun
  have hpending : ∀ l, ws.pending.get? l = none := by
    refine pending_of_keys ?_ hread
    decide +kernel
  have hfacts : (updates {} [library "/w/lib"]).toOption.map (fun ws =>
      ((ws.unit? ⟨"/w/lib/a.cm"⟩).isSome, ws.config.isManifest ⟨"/w/lib/a.cm"⟩)) =
        some (true, false) := by
    decide +kernel
  rw [hread] at hfacts
  obtain ⟨hunit, hmanifest⟩ := Prod.mk.inj (Option.some.inj hfacts)
  obtain ⟨⟨report, next⟩, hupdate, hempty, -⟩ :=
    (hdeleted hpending ((library "/w/lib").disk.remove ⟨"/w/lib"⟩) ⟨"/w/lib"⟩).exists_ok
      (Disk.not_splits_of_aliases rfl)
  obtain ⟨⟨report', next'⟩, hupdate', -, hlacks⟩ :=
    (hdeleted hpending ((library "/w/lib").disk.remove ⟨"/w/lib/a.cm"⟩) ⟨"/w/lib/a.cm"⟩).exists_ok
      (Disk.not_splits_of_aliases rfl)
  refine ⟨ws, hread, hunit, ⟨report, next, hupdate, hempty ?_⟩, report', next', hupdate',
    hlacks ?_ hmanifest⟩
  · decide
  · decide

/-- What is within a location after it has been deleted from a workspace. -/
def within (l : Location) (ws : Workspace) : List Location × List String × List Location :=
  (ws.units.keys.filter (·.isWithin l),
    (ws.index.entries.filter (·.location.isWithin l)).map (·.globalId),
    (ws.packages.toList.map (·.root)).filter (·.isWithin l))

/-- A directory whose name looks like that of a file keeps everything when it is deleted. -/
theorem directory_with_extension_stays :
    ∃ ws, updates {} [library "/w/lib.v2"] = .ok ws ∧
      (∀ l, ws.pending.get? l = none) ∧
      ws.config.isTracked ⟨"/w/lib.v2"⟩ = false ∧
      ∃ report next, ws.update ((library "/w/lib.v2").disk.remove ⟨"/w/lib.v2"⟩) []
        [⟨"/w/lib.v2"⟩] = .ok (report, next) ∧
        within ⟨"/w/lib.v2"⟩ next =
          ([⟨"/w/lib.v2/a.cm"⟩, ⟨"/w/lib.v2/q/package.json"⟩], ["p.X"], [⟨"/w/lib.v2/q"⟩]) := by
  obtain ⟨ws, hrun, hsettled⟩ := ((Settled.ofConfig {}).run
    [(library "/w/lib.v2").operation]).exists_ok (not_splitBy (by decide +kernel))
  have hread : updates {} [library "/w/lib.v2"] = .ok ws := hrun
  obtain ⟨⟨report, next⟩, hupdate, -⟩ :=
    (hsettled.update ((library "/w/lib.v2").disk.remove ⟨"/w/lib.v2"⟩) []
      [⟨"/w/lib.v2"⟩]).exists_ok (Disk.not_splits_of_aliases rfl)
  have htracked : (updates {} [library "/w/lib.v2"]).toOption.map
      (·.config.isTracked ⟨"/w/lib.v2"⟩) = some false := by
    decide +kernel
  have hwithin : ((updates {} [library "/w/lib.v2"]).toOption.bind fun ws =>
      (ws.update ((library "/w/lib.v2").disk.remove ⟨"/w/lib.v2"⟩) []
        [⟨"/w/lib.v2"⟩]).toOption.map (within ⟨"/w/lib.v2"⟩ ·.2)) =
        some ([⟨"/w/lib.v2/a.cm"⟩, ⟨"/w/lib.v2/q/package.json"⟩], ["p.X"],
          [⟨"/w/lib.v2/q"⟩]) := by
    decide +kernel
  rw [hread] at htracked hwithin
  refine ⟨ws, hread, pending_of_keys ?_ hread, Option.some.inj htracked, report, next,
    hupdate, ?_⟩
  · decide +kernel
  · have hleft : ((ws.update ((library "/w/lib.v2").disk.remove ⟨"/w/lib.v2"⟩) []
        [⟨"/w/lib.v2"⟩]).toOption.map (within ⟨"/w/lib.v2"⟩ ·.2)) = _ := hwithin
    rw [hupdate] at hleft
    exact Option.some.inj hleft

end Histories
end ModelWorkspace
