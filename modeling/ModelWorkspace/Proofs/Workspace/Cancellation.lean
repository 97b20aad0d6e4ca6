import ModelWorkspace.Proofs.Workspace.Admitted
import ModelWorkspace.Proofs.Workspace.Declarations

/-!
# Parses that are called off

A parse that is called off changes nothing but what is known of it: the request is used up,
the file is reported and waits for the next update.  What was tracked of the file stays as it
was, and what was not tracked does not appear.  The next update loads the file again, as long
as it is not deleted, a package owns it, and it can be read at that moment.  A file that cannot
is left as it is, and waits no longer.
-/

namespace ModelWorkspace
namespace Build

variable {ws : Workspace} {l : Location} {b c : Build} {disk : Disk}

/-- Before any model file is loaded no request has been used up, none is reported, and a model
file is as it was before the update, or is gone and reported. -/
structure Untried (ws : Workspace) (l : Location) (b : Build) : Prop where
  request : b.workspace.cancelRequests.get? l = ws.cancelRequests.get? l
  cancelled : l ∉ b.report.cancelled
  unparsed : ws.config.isManifest l = false → l ∉ b.report.parsed
  left : ws.config.isManifest l = false → ∀ u, ws.units.get? l = some u →
    l ∈ b.report.deleted ∨
      l ∉ b.touched.toList ∧ ∃ v, b.workspace.units.get? l = some v ∧ u.SameContent v
  absent : ws.config.isManifest l = false → ws.units.get? l = none ∨ l ∈ b.report.deleted →
    b.workspace.units.get? l = none

theorem untried_start (ws : Workspace) (l : Location) : Untried ws l { workspace := ws } where
  request := rfl
  cancelled := List.not_mem_nil
  unparsed := fun _ => List.not_mem_nil
  left := fun _ u hu => .inr ⟨List.not_mem_nil, u, hu, .refl u⟩
  absent := fun _ hwhy => hwhy.resolve_right List.not_mem_nil

theorem isLocal_untried (ws : Workspace) (l : Location) : IsLocal l (Untried ws l) where
  congr := by
    intro b c hagree h
    refine ⟨hagree.request.trans h.request, fun hmem => h.cancelled (hagree.cancelled.mp hmem),
      fun hmodel hmem => h.unparsed hmodel (hagree.parsed.mp hmem), fun hmodel u hu => ?_,
      fun hmodel hwhy => ?_⟩
    · refine (h.left hmodel u hu).imp hagree.deleted.mpr fun ⟨hnot, v, hv, hsame⟩ => ?_
      obtain ⟨w, hw, hcontent⟩ := hagree.exists_unit hv
      exact ⟨fun hmem => hnot (hagree.touched.mp hmem), w, hw, hsame.trans hcontent⟩
    · exact hagree.unit_eq_none_iff.mpr (h.absent hmodel (hwhy.imp_right hagree.deleted.mp))
  removeUnit := by
    intro b h
    obtain ⟨hparsed, hcancelled⟩ := report_removeUnit b l
    refine ⟨h.request, hcancelled ▸ h.cancelled, fun hmodel => hparsed ▸ h.unparsed hmodel,
      fun hmodel u hu => .inl ?_, fun _ _ => (get?_removeUnit b l).1⟩
    · refine (mem_deleted_removeUnit b l l).mpr ?_
      refine (h.left hmodel u hu).imp_right fun ⟨_, v, hv, _⟩ => ⟨rfl, ?_⟩
      rw [hv]
      rfl

theorem Untried.withManifest (h : Untried ws l b) (hmanifest : ws.config.isManifest l = true)
    (text : String) : Untried ws l (b.withManifest l text) where
  request := h.request
  cancelled := h.cancelled
  unparsed := fun hmodel => by
    rw [hmanifest] at hmodel
    cases hmodel
  left := fun hmodel => by
    rw [hmanifest] at hmodel
    cases hmodel
  absent := fun hmodel => by
    rw [hmanifest] at hmodel
    cases hmodel

/-- A model file was not loaded, because its parse was called off or it cannot be read. -/
def PassedBy (b : Build) (ws : Workspace) (disk : Disk) (l : Location) : Prop :=
  l ∈ b.report.cancelled ∨
    ws.config.isManifest l = false ∧ b.workspace.found disk l = .unreadable

/-- What an update that calls parses off leaves at a location. -/
structure Tried (ws : Workspace) (disk : Disk) (l : Location) (b : Build) : Prop where
  pending_iff : l ∈ b.workspace.pending.toList ↔ l ∈ b.report.cancelled
  requested : l ∈ b.report.cancelled → ws.cancelRequests.contains l = true
  request_iff : b.workspace.cancelRequests.contains l = true ↔
    ws.cancelRequests.contains l = true ∧ l ∉ b.report.cancelled
  left : b.PassedBy ws disk l → ∀ u, ws.units.get? l = some u → l ∉ b.report.deleted →
    l ∉ b.touched.toList ∧ ∃ v, b.workspace.units.get? l = some v ∧ u.SameContent v
  absent : b.PassedBy ws disk l → ws.units.get? l = none ∨ l ∈ b.report.deleted →
    b.workspace.units.get? l = none

/-- What is not put off was loaded, or nothing has happened to it. -/
theorem Tried.of_not_cancelled (hpending : b.workspace.pending.get? l = none)
    (hcancelled : l ∉ b.report.cancelled)
    (hrequest : b.workspace.cancelRequests.contains l = ws.cancelRequests.contains l)
    (hloaded : b.workspace.found disk l ≠ .unreadable ∨ Untried ws l b) :
    Tried ws disk l b where
  pending_iff := by
    refine iff_of_false (fun hmem => ?_) hcancelled
    obtain ⟨value, hvalue⟩ := LocationMap.mem_keys_iff.mp hmem
    rw [hpending] at hvalue
    cases hvalue
  requested := fun hmem => absurd hmem hcancelled
  request_iff := by
    rw [hrequest]
    exact (and_iff_left hcancelled).symm
  left := by
    intro hpassed u hu hkept
    obtain ⟨hmodel, hunreadable⟩ := hpassed.resolve_left hcancelled
    exact ((hloaded.resolve_left (not_not.mpr hunreadable)).left hmodel u hu).resolve_left hkept
  absent := by
    intro hpassed hwhy
    obtain ⟨hmodel, hunreadable⟩ := hpassed.resolve_left hcancelled
    exact (hloaded.resolve_left (not_not.mpr hunreadable)).absent hmodel hwhy

/-- A file whose parse is put off is the only one of which there is more to say. -/
theorem Untried.tried (h : Untried ws l b) (hpending : b.workspace.pending.get? l = none)
    (hmodel : ws.config.isManifest l = false) (houtcome : Outcome disk l b c) :
    Tried ws disk l c := by
  have hcontains : b.workspace.cancelRequests.contains l = ws.cancelRequests.contains l := by
    rw [LocationMap.contains_eq_isSome, LocationMap.contains_eq_isSome, h.request]
  have herased : (b.workspace.cancelRequests.erase l).contains l = false :=
    LocationMap.contains_erase_self _ l
  cases houtcome with
  | missing hread hagree =>
      refine .of_not_cancelled (hagree.pending.trans (get?_removeUnit b l).2.2) (fun hmem => ?_)
        (hagree.contains_eq.trans hcontains) (.inl ?_)
      · have hbefore := hagree.cancelled.mp hmem
        rw [(report_removeUnit b l).2] at hbefore
        exact h.cancelled hbefore
      · rw [(hagree.found_eq disk).trans (found_removeUnit hread)]
        exact Loaded.noConfusion
  | passedOver hread hagree =>
      have hagain := (isLocal_untried ws l).congr hagree h
      exact .of_not_cancelled (hagree.pending.trans hpending) hagain.cancelled
        (hagree.contains_eq.trans hcontains) (.inr hagain)
  | stored text hread hcalled hagree =>
      refine .of_not_cancelled (hagree.pending.trans hpending)
        (fun hmem => h.cancelled (hagree.cancelled.mp hmem)) (hagree.contains_eq.trans ?_)
        (.inl ?_)
      · rw [← hcontains, hcalled]
        exact herased
      · rw [(hagree.found_eq disk).trans hread]
        exact Loaded.noConfusion
  | putOff text hread hcalled hagree =>
      have hcancelled : l ∈ c.report.cancelled := hagree.cancelled.mpr List.mem_concat_self
      have hput : l ∈ ((b.beginParse l).2.postpone l).workspace.pending.toList :=
        LocationSet.mem_toList_add.mpr (.inl rfl)
      have hafter : ((b.beginParse l).2.postpone l).workspace.cancelRequests.contains l = false :=
        herased
      refine ⟨iff_of_true ?_ hcancelled, fun _ => hcontains ▸ hcalled, ?_, ?_, ?_⟩
      · obtain ⟨value, hvalue⟩ := LocationMap.mem_keys_iff.mp hput
        exact LocationMap.mem_keys_iff.mpr ⟨value, hagree.pending.trans hvalue⟩
      · rw [hagree.contains_eq, hafter]
        exact iff_of_false Bool.false_ne_true fun hboth => hboth.2 hcancelled
      · intro _ u hu hkept
        have hdeleted : l ∉ b.report.deleted := fun hmem => hkept (hagree.deleted.mpr hmem)
        obtain ⟨htouched, v, hv, hsame⟩ := (h.left hmodel u hu).resolve_left hdeleted
        obtain ⟨w, hw, hcontent⟩ := hagree.exists_unit hv
        exact ⟨fun hmem => htouched (hagree.touched.mp hmem), w, hw, hsame.trans hcontent⟩
      · intro _ hwhy
        exact hagree.unit_eq_none_iff.mpr (h.absent hmodel (hwhy.imp_right hagree.deleted.mp))

/-- A file is as it can be read now: it is tracked with its text, its parse was called off, or
there is nothing to read and nothing tracked.  If it cannot be read, it was not loaded and does
not wait for the next update. -/
def Reloaded (b : Build) (disk : Disk) (l : Location) : Prop :=
  match b.workspace.found disk l with
  | .missing => b.workspace.unit? l = none
  | .unreadable => l ∉ b.report.parsed ∧ l ∉ b.workspace.pending.toList
  | .text text => l ∈ b.report.cancelled ∨
      l ∈ b.report.parsed ∧ (b.workspace.unit? l).map (·.text) = some text

theorem Outcome.reloaded (h : Outcome disk l b c) (huntried : Untried ws l b)
    (hpending : b.workspace.pending.get? l = none) (hmodel : ws.config.isManifest l = false) :
    c.Reloaded disk l := by
  unfold Reloaded
  cases h with
  | missing hread hagree =>
      rw [(hagree.found_eq disk).trans (found_removeUnit hread)]
      exact hagree.unit_eq_none_iff.mpr (get?_removeUnit b l).1
  | passedOver hread hagree =>
      rw [(hagree.found_eq disk).trans hread]
      refine ⟨fun hmem => huntried.unparsed hmodel (hagree.parsed.mp hmem), fun hmem => ?_⟩
      obtain ⟨value, hvalue⟩ := LocationMap.mem_keys_iff.mp hmem
      cases hvalue.symm.trans (hagree.pending.trans hpending)
  | putOff text hread hcalled hagree =>
      rw [(hagree.found_eq disk).trans hread]
      exact .inl (hagree.cancelled.mpr List.mem_concat_self)
  | stored text hread hcalled hagree =>
      rw [(hagree.found_eq disk).trans hread]
      have hput := unit_storeModel_self (b.beginParse l).2 l text (Document.ofText text)
      obtain ⟨v, hv, hsame⟩ := hagree.exists_unit hput
      refine .inr ⟨hagree.parsed.mpr List.mem_concat_self, ?_⟩
      rw [Workspace.unit?, hv, Option.map_some, hsame.text_eq]
      rfl

end Build

namespace Workspace

variable {ws : Workspace} {disk : Disk} {changed deleted : List Location} {l : Location}
  {last : Build} {models : LocationSet}

namespace LoadsFiles

theorem untried (h : ws.LoadsFiles disk changed deleted last models) (hsettled : ws.Settled)
    (l : Location) : Build.Untried ws l last.behindManifests := by
  have hlocal := Build.isLocal_untried ws l
  have hbegun := hlocal.deleteAll (Build.untried_start ws l) (deleted.map disk.canonical)
  exact h.behindManifests hlocal
    ⟨hbegun.request, hbegun.cancelled, hbegun.unparsed, hbegun.left, hbegun.absent⟩
    (fun hmanifest c text _ hc => hc.withManifest hmanifest text) hsettled

/-- What an update leaves at a location, whether its parse was called off or not. -/
theorem tried (h : ws.LoadsFiles disk changed deleted last models) (hsettled : ws.Settled)
    (l : Location) : Build.Tried ws disk l (last.finished disk models) := by
  have huntried := h.untried hsettled l
  have hpending := h.pending_behindManifests hsettled l
  rcases Build.outcome_or_agreeAt last disk models l with ⟨⟨hmem, -⟩, houtcome⟩ | ⟨-, hagree⟩
  · exact huntried.tried hpending (h.model l hmem) houtcome
  · have hagain := (Build.isLocal_untried ws l).congr hagree huntried
    refine .of_not_cancelled (hagree.pending.trans hpending) hagain.cancelled ?_ (.inr hagain)
    rw [LocationMap.contains_eq_isSome, LocationMap.contains_eq_isSome, hagain.request]

/-- As long as packages stay the same, a file that is left alone keeps its entries. -/
theorem entriesIn_eq (h : ws.LoadsFiles disk changed deleted last models)
    (hsettled : ws.Settled) (hchanged : (last.finished disk models).packagesChanged = false)
    (htouched : l ∉ (last.finished disk models).touched.toList) {u : SourceUnit}
    (hu : ws.units.get? l = some u) (hmodel : u.isModel = true) :
    (last.finished disk models).workspace.index.entriesIn l = ws.index.entriesIn l := by
  have hprepared := h.prepared hsettled
  have hfinished := Build.agreeAt_finished last disk models l
  have hsame : (last.finished disk models).packagesChanged =
      (last.loaded disk models).packagesChanged := by
    obtain ⟨units, heq⟩ := last.exists_finished_eq disk models
    rw [heq]
    rfl
  rw [hsame] at hchanged
  have hnot : l ∉ (last.loaded disk models).touched.toList := fun hmem =>
    htouched (hfinished.touched.mpr hmem)
  obtain ⟨v, hv, hkind⟩ := hprepared.kept l u hu hmodel hnot
  have hready : Build.isReady v = false := by
    refine Bool.eq_false_of_not_eq_true fun hready => hnot ?_
    exact hprepared.touched_of_ready hsettled hchanged hv hready
  rw [(Build.frame_finished last disk models).2.2.1]
  exact hprepared.entriesIn_of_not_ready hsettled hv hready hnot

/-- A pending file is loaded again if it can be read, unless it is erased or nobody owns it. -/
theorem reloaded (h : ws.LoadsFiles disk changed deleted last models) (hsettled : ws.Settled)
    (hadmitted : ws.Admitted) (hl : l ∈ ws.pending.toList) :
    Erased (deleted.map disk.canonical) l ∨
      (last.finished disk models).workspace.packageOf? l = none ∨
      (last.finished disk models).Reloaded disk l := by
  refine or_iff_not_imp_left.mpr fun hkept => or_iff_not_imp_left.mpr fun howned => ?_
  have hagree := Build.agreeAt_deleteAll { workspace := ws } hkept
  obtain ⟨value, hvalue⟩ := LocationMap.mem_keys_iff.mp hl
  have hbegun : l ∈ (ws.begun disk deleted).workspace.pending.toList :=
    LocationMap.mem_keys_iff.mpr ⟨value, hagree.pending.trans hvalue⟩
  have hrequested : l ∈ ((ws.begun disk deleted).requestedModels disk changed).toList := by
    refine Build.mem_requestedModels.mpr ⟨hsettled.mem_requested_iff.mpr (.inr hbegun), ?_⟩
    rw [(hsettled.loading_begun disk deleted).config_eq]
    exact (hadmitted.pending l hl).2
  rcases Build.outcome_or_agreeAt last disk models l with ⟨-, houtcome⟩ | ⟨hnot, -⟩
  · exact houtcome.reloaded (h.untried hsettled l) (h.pending_behindManifests hsettled l)
      (hadmitted.pending l hl).2
  · exact absurd ⟨h.requested l hrequested, Option.isSome_iff_ne_none.mpr howned⟩ hnot

end LoadsFiles

/-- What an update of a workspace does about parses that are called off, given the build that
it ends with. -/
structure CallsOff (ws : Workspace) (disk : Disk) (deleted : List Location) (b : Build) :
    Prop where
  /-- The files that are reported are those that the next update is to load. -/
  pending_iff : ∀ l, l ∈ b.workspace.pending.toList ↔ l ∈ b.report.cancelled
  /-- Only what was asked for is called off, and with that the request is used up. -/
  requested : ∀ l ∈ b.report.cancelled, ws.cancelRequests.contains l = true
  request_iff : ∀ l, b.workspace.cancelRequests.contains l = true ↔
    ws.cancelRequests.contains l = true ∧ l ∉ b.report.cancelled
  /-- What was not loaded, because its parse was called off or it cannot be read, is tracked as
  it was, if it was tracked and has not been removed; and if no package has changed, so is what is
  known of its elements. -/
  left : ∀ l, b.PassedBy ws disk l → ∀ u, ws.unit? l = some u → l ∉ b.report.deleted →
    (∃ v, b.workspace.unit? l = some v ∧ v.text = u.text ∧ v.document = u.document) ∧
      (b.packagesChanged = false → b.workspace.index.entriesIn l = ws.index.entriesIn l)
  /-- What was not tracked, or has been removed, is neither tracked nor indexed. -/
  absent : ∀ l, b.PassedBy ws disk l → ws.unit? l = none ∨ l ∈ b.report.deleted →
    b.workspace.unit? l = none ∧ b.workspace.index.entriesIn l = []
  /-- What was called off before is loaded again if it can be read. -/
  reloaded : ∀ l ∈ ws.pending.toList, Erased (deleted.map disk.canonical) l ∨
    b.workspace.packageOf? l = none ∨ b.Reloaded disk l

theorem Settled.callsOff (h : ws.Settled) (hadmitted : ws.Admitted) (disk : Disk)
    (changed deleted : List Location) :
    ws.CallsOff disk deleted (ws.updated disk changed deleted) := by
  obtain ⟨last, models, hloads⟩ := h.exists_loadsFiles hadmitted disk changed deleted
  rw [updated_eq hloads.loaded]
  have hnext := hloads.loading.settled_finished h disk hloads.model
  have htried := hloads.tried h
  have hmodel : ∀ l, (last.finished disk models).PassedBy ws disk l →
      ws.config.isManifest l = false := fun l hl => hl.elim
    (fun hcancelled =>
      hloads.model l (hloads.mem_of_pending h ((htried l).pending_iff.mpr hcancelled)))
    (·.1)
  exact
    { pending_iff := fun l => (htried l).pending_iff
      requested := fun l => (htried l).requested
      request_iff := fun l => (htried l).request_iff
      left := by
        intro l hl u hu hkept
        obtain ⟨htouched, v, hv, hsame⟩ := (htried l).left hl u hu hkept
        refine ⟨⟨v, hv, hsame.text_eq, hsame.sameSource.document_eq⟩, fun hchanged => ?_⟩
        refine hloads.entriesIn_eq h hchanged htouched hu ?_
        rw [(h.wellFormed l u hu).isModel_eq, hmodel l hl]
        rfl
      absent := by
        intro l hl hwhy
        have hnone := (htried l).absent hl hwhy
        refine ⟨hnone, List.eq_nil_iff_forall_not_mem.mpr fun e he => ?_⟩
        rw [hnext.coherent.entriesIn_eq, List.mem_filter, decide_eq_true_iff] at he
        obtain ⟨u, hu, -⟩ := hnext.tracked e he.1
        rw [he.2, hnone] at hu
        cases hu
      reloaded := fun l => hloads.reloaded h hadmitted }

/-- **A parse that is called off leaves everything as it was, and is made up for.**  Behind
every run, whatever buffers are open and whatever parses are to be called off: an update
reports the files whose parse was called off, exactly these are pending behind it, and their
requests are used up.  Such a file has the text, the document and, if no package has changed,
the entries that it had, unless the update removed it; one that was not tracked is not tracked
now.  And the files that were pending before have been loaded again, apart from those that are
deleted, those that no package owns, and those that cannot be read at that moment: these are
left as they were, too, and are pending no longer. -/
theorem run_cancellation (config : WorkspaceConfig) (operations : List Operation) :
    ((Workspace.ofConfig config).run operations).GivesUnless (SplitBy operations) fun ws =>
      ∀ buffers requests disk changed deleted,
        let start : Workspace := { ws with buffers := buffers, cancelRequests := requests }
        (start.update disk changed deleted).GivesUnless disk.Splits fun (report, next) =>
          ∃ begun b, start.beginBuild disk deleted = .ok begun ∧
            runBuild disk begun changed = .ok b ∧
            report = b.report ∧ next = b.workspace ∧ start.CallsOff disk deleted b := by
  refine ((Admitted.ofConfig config).run (Settled.ofConfig config) operations).mono
    fun ws ⟨hsettled, hadmitted⟩ buffers requests disk changed deleted => ?_
  have hstart : Settled { ws with buffers := buffers, cancelRequests := requests } :=
    hsettled.congr rfl rfl rfl rfl
  have hcalls := hstart.callsOff (hadmitted.congr rfl rfl rfl) disk changed deleted
  refine (update_runs _ disk changed deleted).mono fun _ hresult => ?_
  obtain ⟨begun, b, hbegun, hb, hlast, hreport, hnext⟩ := hresult
  exact ⟨begun, b, hbegun, hb, hreport, hnext, hlast ▸ hcalls⟩

end Workspace

namespace Histories

open Change Workspace

/-- A package with one file. -/
def single : Disk :=
  lastDisk Disk.empty (edits Disk.empty [manifestAt "/package.json", entityAt "/a.cm" "A"])

/-- The package is read while the parse of its file is called off. -/
def calledOff : List Operation :=
  [.cancelNext ⟨"/a.cm"⟩, .update single [⟨"/"⟩] []]

/-- The file is there, but its text cannot be read. -/
def locked : Disk :=
  { single with unreadable := single.unreadable.insert ⟨"/a.cm"⟩ "permission denied" }

/-- Everything, with the file, has been moved behind an alias for the root. -/
def moved : Disk :=
  (single.write ⟨"/t/a.cm"⟩ (entityAt "/t/a.cm" "A").2).addAlias ⟨"/"⟩ ⟨"/t"⟩

/-- A file that waits for its parse, and that a package owns, is forgotten if it cannot be read at
the next update. -/
theorem pending_file_forgotten :
    let facts := fun disk => ((Workspace.ofConfig {}).run calledOff).toOption.bind fun ws =>
      (ws.update disk [] []).toOption.map fun (report, next) =>
        (ws.pending.toList, report, next.pending.toList, (next.unit? ⟨"/a.cm"⟩).isSome,
          (next.packageOf? ⟨"/a.cm"⟩).isSome)
    (locked.files.get? ⟨"/a.cm"⟩).isSome = true ∧
      facts locked = some ([⟨"/a.cm"⟩], {}, [], false, true) ∧
      facts moved = some ([⟨"/a.cm"⟩], {}, [], false, true) := by
  refine ⟨?_, ?_, ?_⟩
  · decide +kernel
  · decide +kernel
  · decide +kernel

end Histories
end ModelWorkspace
