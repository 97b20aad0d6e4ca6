import ModelWorkspace.Proofs.Workspace.Overlaps

/-!
# A batch is a set

An update gets a list of changed locations and a list of deleted ones, and takes both for
sets.  The files that changed locations lead to are collected before anything is loaded, in
the order of locations.  The deletions are made in the order of the list, but that leaves no
trace except in the report.  From there on two updates with the same locations go the same
way: no stage looks at what has been reported as deleted.
-/

namespace ModelWorkspace

open Attempt

namespace Workspace

theorem exists_changedFiles_iff {ws : Workspace} {disk : Disk} {changed : List Location} :
    (∃ files, ws.changedFiles disk changed = .ok files) ↔
      ∀ l ∈ changed, ∃ files, ws.filesAt disk l = .ok files := by
  rw [← exists_mapM_iff]
  unfold changedFiles
  cases changed.mapM (ws.filesAt disk) with
  | error failure => exact ⟨fun ⟨_, h⟩ => (nomatch h), fun ⟨_, h⟩ => (nomatch h)⟩
  | ok files => exact ⟨fun _ => ⟨files, rfl⟩, fun _ => ⟨files.flatten, rfl⟩⟩

/-- Changed locations count by the files that they lead to. -/
theorem changedFiles_alike (ws : Workspace) (disk : Disk) {changed changed' : List Location}
    (hchanged : ∀ l, l ∈ changed ↔ l ∈ changed') :
    (ws.changedFiles disk changed).Alike (fun files files' => ∀ l, l ∈ files' ↔ l ∈ files)
      (ws.changedFiles disk changed') := by
  refine .of_gives (ws.changedFiles_gives disk changed) (ws.changedFiles_gives disk changed')
    ?_ fun l => ?_
  · rw [exists_changedFiles_iff, exists_changedFiles_iff]
    exact forall_congr' fun l => imp_congr_left (hchanged l)
  · unfold reached
    rw [List.mem_flatMap, List.mem_flatMap]
    exact exists_congr fun m => and_congr_left fun _ => (hchanged m).symm

end Workspace

namespace Build

variable {b c : Build}

namespace SameUpToOrder

/-! ## Loading manifests -/

theorem withManifest (h : SameUpToOrder b c) (l : Location) (text : String) :
    SameUpToOrder (b.withManifest l text) (c.withManifest l text) :=
  h.map (Build.withManifest · l text) (fun _ _ => rfl) fun _ => rfl

theorem declarePackage (h : SameUpToOrder b c) (l : Location) (manifest : Option Manifest) :
    SameUpToOrder (b.declarePackage l manifest).1 (c.declarePackage l manifest).1 ∧
      (c.declarePackage l manifest).2 = (b.declarePackage l manifest).2 := by
  unfold Build.declarePackage
  rw [h.workspace_eq]
  dsimp only
  split
  · split
    · exact ⟨h, rfl⟩
    · exact ⟨h.setPackages _, rfl⟩
  · exact ⟨h.setPackages _, rfl⟩
  · exact ⟨h.setPackages _, rfl⟩
  · exact ⟨h, rfl⟩

theorem scanRoot_eq (h : SameUpToOrder b c) (disk : Disk) (root? : Option Location) :
    c.scanRoot disk root? = b.scanRoot disk root? := by
  cases root? with
  | some root => exact congrArg (Workspace.scan · disk root) h.workspace_eq
  | none => rfl

theorem loadManifest (h : SameUpToOrder b c) (disk : Disk) (l : Location) :
    (b.loadManifest disk l).Alike (fun x y => SameUpToOrder x.1 y.1 ∧ y.2 = x.2)
      (c.loadManifest disk l) := by
  unfold Build.loadManifest
  rw [h.workspace_eq]
  refine Alike.bind (.refl _) ?_
  rintro loaded _ rfl
  cases loaded with
  | missing =>
      refine .given ?_
      dsimp only
      exact ⟨(unordered_delete b.workspace).congr l h, rfl⟩
  | unreadable =>
      exact .given ⟨h, rfl⟩
  | text text =>
      dsimp only
      rw [storeManifest_eq, storeManifest_eq]
      refine Alike.bind (.given (h.withManifest l text)) fun next next' hstored => ?_
      obtain ⟨hnext, hroot⟩ := hstored.declarePackage l (Manifest.ofText text).toOption
      refine Alike.bind (R := fun found found' => found' = found) ?_ fun found _ heq => ?_
      · rw [hroot, hnext.scanRoot_eq]
        exact (Alike.refl _).mono fun _ _ heq => heq.symm
      · exact .given ⟨hnext, heq⟩

theorem loadManifests (h : SameUpToOrder b c) (disk : Disk) (models : LocationSet)
    (q : ManifestQueue) :
    (b.loadManifests disk models q).Alike (fun x y => SameUpToOrder x.1 y.1 ∧ y.2 = x.2)
      (c.loadManifests disk models q) := by
  -- both loops are at the same place in the same queue
  induction b, models, q using loadedManifests.induct disk generalizing c with
  | case1 b models unseen =>
      rw [Build.loadManifests, Build.loadManifests]
      exact .given ⟨h, rfl⟩
  | case2 b models l waiting unseen ih =>
      rw [Build.loadManifests, Build.loadManifests]
      have halike := h.loadManifest disk l
      have hgives := b.loadManifest_gives disk l
      generalize b.loadManifest disk l = x at halike hgives ⊢
      generalize c.loadManifest disk l = y at halike ⊢
      cases halike with
      | stopped failure other => exact .stopped failure other
      | @given x y related =>
          obtain ⟨hsame, hfound⟩ := related
          obtain rfl := hgives.of_eq_ok rfl
          obtain ⟨next, found⟩ := y
          dsimp only at hsame hfound ⊢
          rw [hsame.workspace_eq, hfound]
          exact ih hsame

/-! ## The stages behind -/

theorem reset (h : SameUpToOrder b c) : SameUpToOrder b.reset c.reset := by
  -- the files that have lost their owners are the same
  have hdropped : SameUpToOrder b.dropOrphans c.dropOrphans := by
    unfold dropOrphans
    rw [h.workspace_eq]
    exact h.foldl unordered_removeUnit.congr _
  obtain ⟨deleted, hperm, heq⟩ := hdropped
  unfold Build.reset
  rw [heq]
  exact ⟨deleted, hperm, rfl⟩

theorem takeModel (h : SameUpToOrder b c) (l : Location) (loaded : Loaded) :
    SameUpToOrder (b.takeModel l loaded) (c.takeModel l loaded) := by
  have hflag : (c.beginParse l).1 = (b.beginParse l).1 :=
    congrArg (·.cancelRequests.contains l) h.workspace_eq
  have hbegun : SameUpToOrder (b.beginParse l).2 (c.beginParse l).2 :=
    h.map (fun b => (b.beginParse l).2) (fun _ _ => rfl) fun _ => rfl
  unfold Build.takeModel
  cases loaded with
  | missing => exact unordered_removeUnit.congr l h
  | unreadable => exact h
  | text text =>
      dsimp only
      rw [hflag]
      split
      · exact hbegun.map (Build.storeModel · l text _) (fun _ _ => rfl) fun _ => rfl
      · exact hbegun.map (Build.postpone · l) (fun _ _ => rfl) fun _ => rfl

theorem loadModel (h : SameUpToOrder b c) (disk : Disk) (l : Location) :
    (Build.loadModel disk b l).Alike SameUpToOrder (Build.loadModel disk c l) := by
  unfold Build.loadModel
  rw [h.workspace_eq]
  exact (Alike.refl _).map fun loaded _ heq => heq ▸ h.takeModel l loaded

theorem loadModels (h : SameUpToOrder b c) (disk : Disk) (models : LocationSet) :
    (b.loadModels disk models).Alike SameUpToOrder (c.loadModels disk models) := by
  -- packages decide which files are loaded
  unfold Build.loadModels owned
  rw [h.workspace_eq]
  exact .foldlM h (fun _ _ l hsame => hsame.loadModel disk l) _

theorem indexed (h : SameUpToOrder b c) : SameUpToOrder b.indexed c.indexed :=
  h.map Build.indexed (fun _ _ => rfl) fun _ => rfl

theorem linked (h : SameUpToOrder b c) : SameUpToOrder b.linked c.linked :=
  h.map Build.linked (fun _ _ => rfl) fun _ => rfl

theorem refreshManifests (h : SameUpToOrder b c) :
    SameUpToOrder b.refreshManifests c.refreshManifests :=
  h.map Build.refreshManifests (fun _ _ => rfl) fun _ => rfl

theorem finishBuild (h : SameUpToOrder b c) (disk : Disk) (models : LocationSet) :
    (Workspace.finishBuild disk b models).Alike SameUpToOrder
      (Workspace.finishBuild disk c models) := by
  have hstart : SameUpToOrder (if b.packagesChanged then b.reset else b)
      (if c.packagesChanged then c.reset else c) := by
    rw [h.packagesChanged_eq]
    split
    · exact h.reset
    · exact h
  rw [finishBuild_eq, finishBuild_eq]
  refine (hstart.loadModels disk models).map fun b c hloaded => ?_
  have hlinked := hloaded.indexed.linked
  have hparsed : c.indexed.linked.report.parsed = b.indexed.linked.report.parsed := by
    rw [hlinked.report.others]
  dsimp only
  rw [hlinked.packagesChanged_eq, hparsed]
  split
  · exact hlinked.refreshManifests
  · exact hlinked

/-! ## Whole builds -/

theorem runBuild (h : SameUpToOrder b c) (disk : Disk) {changed changed' : List Location}
    (hchanged : ∀ l, l ∈ changed ↔ l ∈ changed') :
    (Workspace.runBuild disk b changed).Alike SameUpToOrder
      (Workspace.runBuild disk c changed') := by
  have htaken : SameUpToOrder (Workspace.takePending b).2 (Workspace.takePending c).2 :=
    h.map (fun b => (Workspace.takePending b).2) (fun _ _ => rfl) fun _ => rfl
  have hpending : (Workspace.takePending c).1 = (Workspace.takePending b).1 :=
    congrArg Workspace.pending h.workspace_eq
  unfold Workspace.runBuild
  dsimp only
  rw [hpending, htaken.workspace_eq]
  refine (Workspace.changedFiles_alike _ disk hchanged).bind fun files files' hfiles => ?_
  have hall : (Workspace.takePending b).1.addAll files' =
      (Workspace.takePending b).1.addAll files := by
    refine LocationSet.ext_toList fun l => ?_
    rw [LocationSet.mem_toList_addAll, LocationSet.mem_toList_addAll, hfiles]
  rw [hall]
  refine (htaken.loadManifests disk _ _).bind fun x y hloaded => ?_
  obtain ⟨hlast, hmodels⟩ := hloaded
  rw [hmodels]
  exact hlast.finishBuild disk x.2

end SameUpToOrder
end Build

namespace Workspace

variable {ws : Workspace} {changed changed' deleted deleted' : List Location}

/-- Deletions count by the locations that they name. -/
theorem Settled.beginBuild_alike (h : ws.Settled) (disk : Disk)
    (hdeleted : ∀ l, l ∈ deleted ↔ l ∈ deleted') :
    (ws.beginBuild disk deleted).Alike Build.SameUpToOrder (ws.beginBuild disk deleted') := by
  refine .of_gives (ws.beginBuild_gives disk deleted) (ws.beginBuild_gives disk deleted') ?_ ?_
  · unfold beginBuild
    rw [exists_foldlM_iff, exists_foldlM_iff]
    exact forall_congr' fun l => imp_congr_left (hdeleted l)
  · refine (Build.unordered_delete ws).foldl_of_mem_iff (Build.Loading.start h) fun l => ?_
    rw [List.mem_map, List.mem_map]
    exact exists_congr fun m => and_congr_left fun _ => hdeleted m

/-- An update depends on which locations are called changed and deleted, not on their order
nor on how often they are named. -/
theorem Settled.update_alike (h : ws.Settled) (disk : Disk)
    (hchanged : ∀ l, l ∈ changed ↔ l ∈ changed') (hdeleted : ∀ l, l ∈ deleted ↔ l ∈ deleted') :
    (ws.update disk changed deleted).Alike
      (fun (report, next) (report', next') => next' = next ∧ report.SameUpToOrder report')
      (ws.update disk changed' deleted') :=
  (h.beginBuild_alike disk hdeleted).bind fun _ _ hbegun =>
    (hbegun.runBuild disk hchanged).bind fun _ _ hrun =>
      .given ⟨hrun.workspace_eq, hrun.report⟩

/-- **A batch is a set.**  In every workspace that a run leads to, an update depends on which
locations are called changed and which are called deleted, in whichever order and however
often they are named, and however they overlap: it leads to the same workspace, with the same
documents, index, packages, buffers and pending files, and its report differs at most in the
order of the deleted files.  If it comes to nothing in one order, because the disk cuts a
location within a character, it does so in all. -/
theorem run_update_of_mem_iff (config : WorkspaceConfig) (operations : List Operation) :
    ((Workspace.ofConfig config).run operations).GivesUnless (SplitBy operations) fun ws =>
      ∀ disk changed changed' deleted deleted', (∀ l, l ∈ changed ↔ l ∈ changed') →
        (∀ l, l ∈ deleted ↔ l ∈ deleted') →
        (ws.update disk changed deleted).GivesUnless disk.Splits (fun _ => True) ∧
        (ws.update disk changed deleted).Alike
          (fun (report, next) (report', next') => next' = next ∧ report.SameUpToOrder report')
          (ws.update disk changed' deleted') :=
  ((Settled.ofConfig config).run operations).mono
    fun _ hsettled disk _ _ _ _ hchanged hdeleted =>
      ⟨update_gives_of trivial, hsettled.update_alike disk hchanged hdeleted⟩

end Workspace

namespace Histories

open Workspace

/-- A file with its directory, and in this directory a manifest with the root of its
package. -/
def overlapping : List Location :=
  [⟨"/w/lib/a.cm"⟩, ⟨"/w/lib"⟩, ⟨"/w/lib/q/package.json"⟩, ⟨"/w/lib/q"⟩]

/-- What is reported as deleted in an update. -/
def deletedIn (disk : Disk) (changed deleted : List Location) (ws : Workspace) :
    Option (List Location) :=
  (ws.update disk changed deleted).toOption.map (·.1.deleted)

theorem run_update_of_mem_iff_overlapping :
    ∃ ws, updates {} [library "/w/lib"] = .ok ws ∧
      ∃ report report' next,
        ws.update ((library "/w/lib").disk.remove ⟨"/w/lib"⟩) [⟨"/w"⟩, ⟨"/w/package.json"⟩]
          overlapping = .ok (report, next) ∧
        ws.update ((library "/w/lib").disk.remove ⟨"/w/lib"⟩)
          [⟨"/w/package.json"⟩, ⟨"/w"⟩, ⟨"/w"⟩] (overlapping.reverse ++ overlapping) =
            .ok (report', next) ∧
        report.SameUpToOrder report' ∧
        report.deleted = [⟨"/w/lib/a.cm"⟩, ⟨"/w/lib/q/package.json"⟩] ∧
        report'.deleted = [⟨"/w/lib/q/package.json"⟩, ⟨"/w/lib/a.cm"⟩] := by
  obtain ⟨ws, hrun, hbatch⟩ := (run_update_of_mem_iff {}
    [(library "/w/lib").operation]).exists_ok (not_splitBy (by decide +kernel))
  have hread : updates {} [library "/w/lib"] = .ok ws := hrun
  have hchanged : ∀ l : Location, l ∈ [⟨"/w"⟩, ⟨"/w/package.json"⟩] ↔
      l ∈ [⟨"/w/package.json"⟩, ⟨"/w"⟩, (⟨"/w"⟩ : Location)] := by
    intro l
    simp only [List.mem_cons, List.not_mem_nil, or_false, or_self]
    exact or_comm
  have hdeleted : ∀ l, l ∈ overlapping ↔ l ∈ overlapping.reverse ++ overlapping := by
    intro l
    rw [List.mem_append, List.mem_reverse, or_self]
  obtain ⟨hgives, halike⟩ :=
    hbatch ((library "/w/lib").disk.remove ⟨"/w/lib"⟩) _ _ _ _ hchanged hdeleted
  obtain ⟨⟨report, next⟩, hupdate, -⟩ := hgives.exists_ok (Disk.not_splits_of_aliases rfl)
  obtain ⟨⟨report', next'⟩, hupdate', hnext, hsame⟩ := halike.exists_ok hupdate
  rw [hnext] at hupdate'
  have hfirst : deletedIn ((library "/w/lib").disk.remove ⟨"/w/lib"⟩)
      [⟨"/w"⟩, ⟨"/w/package.json"⟩] overlapping ws =
        some [⟨"/w/lib/a.cm"⟩, ⟨"/w/lib/q/package.json"⟩] := by
    refine eq_of_updates hread ?_
    decide +kernel
  have hsecond : deletedIn ((library "/w/lib").disk.remove ⟨"/w/lib"⟩)
      [⟨"/w/package.json"⟩, ⟨"/w"⟩, ⟨"/w"⟩] (overlapping.reverse ++ overlapping) ws =
        some [⟨"/w/lib/q/package.json"⟩, ⟨"/w/lib/a.cm"⟩] := by
    refine eq_of_updates hread ?_
    decide +kernel
  unfold deletedIn at hfirst hsecond
  rw [hupdate] at hfirst
  rw [hupdate'] at hsecond
  exact ⟨ws, hread, report, report', next, hupdate, hupdate', hsame, Option.some.inj hfirst,
    Option.some.inj hsecond⟩

end Histories
end ModelWorkspace
