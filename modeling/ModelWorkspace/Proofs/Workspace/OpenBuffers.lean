import ModelWorkspace.Proofs.Workspace.Declarations
import ModelWorkspace.Proofs.Workspace.Admitted
import ModelWorkspace.Proofs.Workspace.Aliases
import ModelWorkspace.Proofs.Workspace.History

/-!
# Open buffers

The text of a file that is open in an editor counts in place of the one on the disk.  A file
is read when it is loaded, and opening it or changing its text loads it; a buffer is closed by
the user, or with the unit of its file.  So a unit shows the text of its buffer whenever the
last parse of the file was not called off.
-/

namespace ModelWorkspace

open Attempt

namespace Workspace

/-- A buffer is opened or changed on a disk without aliases, and at a location below which
there is no file. -/
def Operation.IsFlat : Operation → Prop
  | .openBuffer disk l _ | .changeBuffer disk l _ =>
    disk.aliases = LocationMap.empty ∧ disk.Childless l
  | _ => True

/-- A buffer is opened or changed at a location that leads to a real one, with no file below
it. -/
def Operation.Lands : Operation → Prop
  | .openBuffer disk l _ | .changeBuffer disk l _ =>
    disk.IsReal (disk.canonical l) ∧ disk.holdsFiles (disk.canonical l) = false
  | _ => True

/-- A unit has the text of its buffer, if it has one, unless its parse was called off. -/
def Shows (ws : Workspace) (l : Location) : Prop :=
  ∀ u text, ws.unit? l = some u → l ∉ ws.pending.toList → ws.buffers.get? l = some text →
    u.text = text

end Workspace

namespace Build

variable {ws : Workspace} {l : Location} {b c : Build} {disk : Disk}

/-! ## Inside an update -/

/-- The unit at a location has the text of the buffer. -/
def ShowsBuffer (l : Location) (b : Build) : Prop :=
  ∀ u text, b.workspace.units.get? l = some u → b.workspace.buffers.get? l = some text →
    u.text = text

theorem isLocal_showsBuffer (l : Location) : IsLocal l (ShowsBuffer l) where
  congr := by
    intro b c hagree hb v text hv hbuffer
    obtain ⟨u, hu, hsame⟩ := hagree.exists_unit_of hv
    rw [hsame.text_eq]
    exact hb u text hu (hagree.buffer.symm.trans hbuffer)
  removeUnit := by
    intro b _ u _ hu
    rw [(get?_removeUnit b l).1] at hu
    cases hu

/-- What is read of a file that is open is the text of the buffer. -/
theorem eq_of_read {text other : String} (hread : b.workspace.found disk l = .text text)
    (hbuffer : b.workspace.buffers.get? l = some other) : text = other := by
  cases (Workspace.found_of_buffer hbuffer disk).symm.trans hread
  rfl

/-- A file that cannot be read is not open. -/
theorem showsBuffer_of_unreadable (hread : b.workspace.found disk l = .unreadable) :
    ShowsBuffer l b := by
  intro u text _ hbuffer
  cases (Workspace.found_of_buffer hbuffer disk).symm.trans hread

theorem showsBuffer_withManifest (b : Build) {text : String}
    (hread : b.workspace.found disk l = .text text) : ShowsBuffer l (b.withManifest l text) := by
  intro u other hu hbuffer
  have hput := unit_withManifest_self b l text
  rw [hput] at hu
  cases hu
  exact eq_of_read hread hbuffer

/-- A model file that was loaded shows its buffer, unless its parse was called off. -/
theorem Outcome.showsBuffer (h : Outcome disk l b c)
    (hpending : c.workspace.pending.get? l = none) : ShowsBuffer l c := by
  cases h with
  | missing hread hagree =>
      intro u text hu
      rw [hagree.unit_eq_none_iff.mpr (get?_removeUnit b l).1] at hu
      cases hu
  | passedOver hread hagree =>
      exact (isLocal_showsBuffer l).congr hagree (showsBuffer_of_unreadable hread)
  | putOff text hread hcalled hagree =>
      have hput : ((b.beginParse l).2.postpone l).workspace.pending.get? l = some () :=
        LocationMap.get?_insert_self _ _ _
      rw [hagree.pending, hput] at hpending
      cases hpending
  | stored text hread hcalled hagree =>
      refine (isLocal_showsBuffer l).congr hagree fun u other hu hbuffer => ?_
      have hput := unit_storeModel_self (b.beginParse l).2 l text (Document.ofText text)
      rw [hput] at hu
      cases hu
      exact eq_of_read hread hbuffer

/-- Of a file that was tracked, or has been removed, no buffer is open unless it is tracked. -/
def ClosesBuffer (ws : Workspace) (l : Location) (b : Build) : Prop :=
  (ws.unit? l).isSome = true ∨ l ∈ b.report.deleted → b.workspace.units.get? l = none →
    b.workspace.buffers.get? l = none

theorem isLocal_closesBuffer (ws : Workspace) (l : Location) : IsLocal l (ClosesBuffer ws l) where
  congr := by
    intro b c hagree hb hwhy hnone
    rw [hagree.buffer]
    exact hb (hwhy.imp_right hagree.deleted.mp) (hagree.unit_eq_none_iff.mp hnone)
  removeUnit := fun {b} _ _ _ => (get?_removeUnit b l).2.1

theorem Outcome.closesBuffer (h : Outcome disk l b c) (hb : ClosesBuffer ws l b) :
    ClosesBuffer ws l c := by
  have hlocal := isLocal_closesBuffer ws l
  cases h with
  | missing hread hagree => exact hlocal.congr hagree (hlocal.removeUnit hb)
  | passedOver hread hagree => exact hlocal.congr hagree hb
  | putOff text hread hcalled hagree => exact hlocal.congr hagree hb
  | stored text hread hcalled hagree =>
      refine hlocal.congr hagree fun _ hnone => ?_
      have hput := unit_storeModel_self (b.beginParse l).2 l text (Document.ofText text)
      rw [hput] at hnone
      cases hnone

end Build

namespace Workspace

variable {ws : Workspace} {disk : Disk} {changed deleted : List Location} {l : Location}
  {last : Build} {models : LocationSet}

namespace LoadsFiles

/-- A manifest shows its buffer behind the manifests, if it did before or is loaded. -/
theorem showsBuffer_of_manifest (h : ws.LoadsFiles disk changed deleted last models)
    (hsettled : ws.Settled) (hadmitted : ws.Admitted) (hl : ws.config.isManifest l = true)
    (hwhy : ws.Shows l ∨ l ∈ ws.reached disk changed) : last.ShowsBuffer l := by
  have hlocal := Build.isLocal_showsBuffer l
  let P := fun (b : Build) (_ : LocationSet) (waiting : List Location) =>
    l ∈ waiting ∨ b.ShowsBuffer l
  have hstep : ∀ b models other waiting, True → P b models (other :: waiting) →
      P (b.loadedManifest disk other).1 (models.addAll (b.newModels disk other)) waiting := by
    rintro b models other waiting - hb
    by_cases hother : other = l
    · subst hother
      right
      rcases b.loadedManifest_cases disk other with ⟨-, heq⟩ | ⟨hread, heq⟩ | ⟨text, htext, heq⟩
      · simp only [heq]
        intro u text hu
        exact absurd rfl ((Build.unit_delete_iff b other).mp hu).2.1
      · simp only [heq]
        exact Build.showsBuffer_of_unreadable hread
      · rw [heq]
        exact hlocal.congr
          (Build.agreeAt_declaredPackage (b.withManifest other text) disk other _ other)
          (Build.showsBuffer_withManifest b htext)
    · refine hb.imp (fun hmem => (List.mem_cons.mp hmem).resolve_left (Ne.symm hother)) fun hb => ?_
      exact hlocal.loadedManifest hb disk fun heq => absurd heq hother
  have hstart : P (takePending (ws.begun disk deleted)).2
      ((ws.begun disk deleted).requestedModels disk changed)
      ((ws.begun disk deleted).queue disk changed).waiting := by
    rcases hwhy with hshows | hchanged
    · right
      have hbefore : Build.ShowsBuffer l { workspace := ws } := by
        refine fun u text hu hbuffer => hshows u text hu (fun hmem => ?_) hbuffer
        have hmodel := (hadmitted.pending l hmem).2
        rw [hl] at hmodel
        cases hmodel
      exact hlocal.deleteAll hbefore (deleted.map disk.canonical)
    · left
      refine List.mem_reverse.mpr (List.mem_filter.mpr
        ⟨hsettled.mem_requested_iff.mpr (.inl hchanged), ?_⟩)
      rw [(hsettled.loading_begun disk deleted).config_eq]
      exact hl
  exact (Build.loadedManifests_invariant (W := fun _ => True) (P := P)
    (fun _ _ _ _ hsub hb => hb.imp_left fun hmem => hsub hmem) hstep (fun _ _ => trivial)
    h.loaded hstart).resolve_left List.not_mem_nil

/-- A model file that is not loaded shows its buffer behind the manifests, if it did before. -/
theorem showsBuffer_of_model (h : ws.LoadsFiles disk changed deleted last models)
    (hsettled : ws.Settled) (hl : ws.config.isManifest l = false)
    (hwhy : ws.Shows l ∨ l ∈ ws.reached disk changed) (hnot : l ∉ models.toList) :
    last.behindManifests.ShowsBuffer l := by
  have hlocal := Build.isLocal_showsBuffer l
  have hnever : l ∉ ((ws.begun disk deleted).requested disk changed).toList := by
    refine fun hmem => hnot (h.requested l (Build.mem_requestedModels.mpr ⟨hmem, ?_⟩))
    rw [(hsettled.loading_begun disk deleted).config_eq]
    exact hl
  rw [hsettled.mem_requested_iff, not_or] at hnever
  -- behind the deletions what does not show its buffer is still pending, so it would be loaded
  have hpending : Build.IsLocal l fun b => b.ShowsBuffer l ∨ l ∈ b.workspace.pending.toList := by
    refine ⟨fun hagree hb => hb.imp (hlocal.congr hagree) fun hmem => ?_, fun {b} _ => .inl ?_⟩
    · obtain ⟨value, hvalue⟩ := LocationMap.mem_keys_iff.mp hmem
      exact LocationMap.mem_keys_iff.mpr ⟨value, hagree.pending.trans hvalue⟩
    · intro u text hu
      rw [(Build.get?_removeUnit b l).1] at hu
      cases hu
  have hbefore : Build.ShowsBuffer l { workspace := ws } ∨ l ∈ ws.pending.toList := by
    by_cases hmem : l ∈ ws.pending.toList
    · exact .inr hmem
    · exact .inl fun u text hu => hwhy.resolve_right hnever.1 u text hu hmem
  have hbegun : (ws.begun disk deleted).ShowsBuffer l :=
    (hpending.deleteAll (b := { workspace := ws }) hbefore _).resolve_right hnever.2
  exact h.behindManifests hlocal hbegun (fun hmanifest => by
    rw [hl] at hmanifest
    cases hmanifest) hsettled

/-- Behind an update a unit shows its buffer if it did before, or if its file has changed. -/
theorem shows (h : ws.LoadsFiles disk changed deleted last models) (hsettled : ws.Settled)
    (hadmitted : ws.Admitted) (hwhy : ws.Shows l ∨ l ∈ ws.reached disk changed) :
    (last.finished disk models).workspace.Shows l := by
  have hlocal := Build.isLocal_showsBuffer l
  intro u text hu hpending hbuffer
  rcases Build.outcome_or_agreeAt last disk models l with ⟨-, houtcome⟩ | ⟨hnot, hagree⟩
  · have hnone : (last.finished disk models).workspace.pending.get? l = none :=
      Option.eq_none_iff_forall_ne_some.mpr fun value hvalue =>
        hpending (LocationMap.mem_keys_iff.mpr ⟨value, hvalue⟩)
    exact houtcome.showsBuffer hnone u text hu hbuffer
  · refine hlocal.congr hagree ?_ u text hu hbuffer
    cases hl : ws.config.isManifest l with
    | true =>
        exact hlocal.behindManifests
          (h.showsBuffer_of_manifest hsettled hadmitted hl hwhy)
    | false =>
        refine h.showsBuffer_of_model hsettled hl hwhy fun hmem => hnot ⟨hmem, ?_⟩
        have hnext := h.loading.settled_finished hsettled disk h.model
        refine hnext.owned l u hu ?_
        rw [(hnext.wellFormed l u hu).isModel_eq, h.config_eq hsettled, hl]
        rfl

/-- A file that is gone behind an update has no buffer. -/
theorem closesBuffer (h : ws.LoadsFiles disk changed deleted last models)
    (hsettled : ws.Settled) (l : Location) :
    Build.ClosesBuffer ws l (last.finished disk models) := by
  have hlocal := Build.isLocal_closesBuffer ws l
  have hbefore : Build.ClosesBuffer ws l { workspace := ws } := by
    intro hwhy hnone
    have hsame : ws.unit? l = none := hnone
    rw [hsame] at hwhy
    exact absurd (hwhy.resolve_left Bool.false_ne_true) List.not_mem_nil
  have hbehind := h.behindManifests hlocal (hlocal.deleteAll hbefore (deleted.map disk.canonical))
    (fun _ c text _ _ _ hnone => by
      have hput := Build.unit_withManifest_self c l text
      rw [hput] at hnone
      cases hnone) hsettled
  rcases Build.outcome_or_agreeAt last disk models l with ⟨-, houtcome⟩ | ⟨-, hagree⟩
  · exact houtcome.closesBuffer hbehind
  · exact hlocal.congr hagree hbehind

end LoadsFiles

/-! ## Operations -/

/-- A real location with no file below it stands for itself. -/
theorem mem_reached_of_file {disk : Disk} {changed : List Location} {l : Location}
    (hreal : disk.IsReal l) (hfile : disk.holdsFiles l = false)
    (htracked : ws.config.isTracked l = true) (hl : l ∈ changed) :
    l ∈ ws.reached disk changed := by
  refine List.mem_flatMap.mpr ⟨l, hl, ?_⟩
  unfold reachedFrom
  dsimp only
  rw [hreal.canonical_eq, hfile, if_neg Bool.false_ne_true, if_pos htracked]
  exact List.mem_singleton_self l

/-- A text goes into the buffer of a file that has changed, if the file is tracked. -/
theorem Operation.Lands.mem_reached {operation : Operation} (h : operation.Lands)
    {disk : Disk} {given changed : List Location} {l : Location} {text : String}
    (hrequest : operation.request? = some (disk, given)) (hput : operation.Puts l text)
    (htracked : ws.config.isTracked l = true) (hl : l ∈ changed) :
    l ∈ ws.reached disk changed := by
  cases operation with
  | openBuffer disk raw source =>
      cases hrequest
      obtain ⟨rfl, -⟩ := hput
      exact mem_reached_of_file h.1 h.2 htracked hl
  | changeBuffer disk raw source =>
      cases hrequest
      obtain ⟨rfl, -⟩ := hput
      exact mem_reached_of_file h.1 h.2 htracked hl
  | update => exact hput.elim
  | closeBuffer => exact hput.elim
  | cancelNext => exact hput.elim

/-- On a disk without aliases every location is real. -/
theorem Operation.IsFlat.lands {operation : Operation} (h : operation.IsFlat) :
    operation.Lands := by
  have hfile : ∀ {disk : Disk} {l : Location},
      disk.aliases = LocationMap.empty ∧ disk.Childless l →
        disk.IsReal (disk.canonical l) ∧ disk.holdsFiles (disk.canonical l) = false := by
    rintro disk l ⟨haliases, hchildless⟩
    have hreal : ∀ other, disk.IsReal other := fun other =>
      Disk.resolve_of_unaliased (by rw [haliases]; rfl)
    refine ⟨hreal _, ?_⟩
    unfold Disk.holdsFiles
    rw [(hreal l).canonical_eq, (hreal l).canonical_eq, List.any_eq_false]
    intro f hf
    obtain ⟨text, htext⟩ := LocationMap.mem_keys_iff.mp hf
    rw [hchildless f text htext]
    exact Bool.false_ne_true
  cases operation with
  | openBuffer disk l text => exact hfile h
  | changeBuffer disk l text => exact hfile h
  | update disk changed deleted => trivial
  | closeBuffer disk l => trivial
  | cancelNext l => trivial

/-- A file that is gone behind an operation has no buffer, and units show their buffers. -/
theorem Settled.perform (h : ws.Settled) (hadmitted : ws.Admitted) (operation : Operation) :
    (operation.perform ws).GivesUnless operation.Splits fun (report, next) =>
      next.Settled ∧ next.Admitted ∧
        (∀ l, (ws.unit? l).isSome = true ∨ l ∈ report.deleted → next.unit? l = none →
          next.buffers.get? l = none) ∧
        (operation.Lands → (∀ l, ws.Shows l) → ∀ l, next.Shows l) := by
  refine Operation.perform_gives (fun requests => ?_) ?_
  · refine ⟨h.congr rfl rfl rfl rfl, hadmitted.congr rfl rfl rfl, fun l hwhy hnone => ?_,
      fun _ hshows => hshows⟩
    have hsame : ws.unit? l = none := hnone
    rw [hsame] at hwhy
    exact absurd (hwhy.resolve_left Bool.false_ne_true) List.not_mem_nil
  · intro buffers disk changed deleted given hrequest _ hbuffers
    have hstart : Settled { ws with buffers := buffers } := h.congr rfl rfl rfl rfl
    have hsame : Admitted { ws with buffers := buffers } := hadmitted.congr rfl rfl rfl
    obtain ⟨last, models, hloads⟩ := hstart.exists_loadsFiles hsame disk changed deleted
    refine update_gives_of ⟨hstart.updated disk changed deleted,
      hsame.updated hstart disk changed deleted, ?_⟩
    rw [updated_eq hloads.loaded]
    refine ⟨fun l => hloads.closesBuffer hstart l, fun hlands hshows l => ?_⟩
    cases htracked : ws.config.isTracked l with
    | false =>
        intro u text hu
        rw [unit?, hloads.unit_eq_none hstart hsame htracked] at hu
        cases hu
    | true =>
        -- a buffer that is new is one of a file that has changed
        refine hloads.shows hstart hsame (or_iff_not_imp_right.mpr fun hunchanged => ?_)
        intro u text hu hpending hbuffer
        refine hshows l u text hu hpending ((hbuffers l text hbuffer).resolve_right ?_)
        rintro ⟨hput, hchanged⟩
        exact hunchanged (hlands.mem_reached hrequest hput htracked hchanged)

/-- **Open buffers win over the disk.**  Behind every run in which buffers are opened and
changed only at places below which there is no file, and on disks without aliases, each unit
whose file is open and not pending has the text of the buffer.  And whatever is done next, of a
file that is removed then, or was tracked before and is not tracked then, no buffer is left
open. -/
theorem run_buffers_shown (config : WorkspaceConfig) (operations : List Operation)
    (hflat : ∀ operation ∈ operations, operation.IsFlat) :
    ((Workspace.ofConfig config).run operations).GivesUnless (SplitBy operations) fun ws =>
      (∀ l u text, ws.unit? l = some u → l ∉ ws.pending.toList →
        ws.buffers.get? l = some text → u.text = text) ∧
      ∀ operation : Operation,
        (operation.perform ws).GivesUnless operation.Splits fun (report, next) =>
          ∀ l, (ws.unit? l).isSome = true ∨ l ∈ report.deleted → next.unit? l = none →
            next.buffers.get? l = none := by
  have hstep : ∀ ws : Workspace, ∀ operation ∈ operations,
      ws.Settled ∧ ws.Admitted ∧ (∀ l, ws.Shows l) →
        (operation.apply ws).GivesUnless operation.Splits fun next =>
          next.Settled ∧ next.Admitted ∧ ∀ l, next.Shows l := by
    rintro ws operation hmem ⟨hsettled, hadmitted, hshows⟩
    refine Operation.apply_gives ((hsettled.perform hadmitted operation).mono ?_)
    rintro _ ⟨hnext, hnext', -, hshown⟩
    exact ⟨hnext, hnext', hshown (hflat operation hmem).lands hshows⟩
  refine (run_induction hstep ⟨Settled.ofConfig config, Admitted.ofConfig config,
    fun _ _ _ hu => nomatch hu⟩).mono ?_
  rintro ws ⟨hsettled, hadmitted, hshows⟩
  refine ⟨fun l => hshows l, fun operation => ?_⟩
  exact (hsettled.perform hadmitted operation).mono fun _ ⟨_, _, hclosed, _⟩ => hclosed

end Workspace

namespace Histories

open Change Workspace

/-- A file that is opened before its package is there, and changed in the editor behind that. -/
def edited : List Operation :=
  let disk := Disk.empty.write ⟨"/p/package.json"⟩ (manifestAt "/p/package.json").2
  [.openBuffer disk ⟨"/p/a.cm"⟩ (entityAt "/p/a.cm" "A").2,
    .update disk [⟨"/p/package.json"⟩] [],
    .update disk [⟨"/p/a.cm"⟩] [],
    .changeBuffer disk ⟨"/p/a.cm"⟩ (entityAt "/p/a.cm" "B").2]

theorem run_buffers_shown_edited :
    (∀ operation ∈ edited, operation.IsFlat) ∧
      ∃ ws u text, (Workspace.ofConfig {}).run edited = .ok ws ∧
        ws.unit? ⟨"/p/a.cm"⟩ = some u ∧ ws.buffers.get? ⟨"/p/a.cm"⟩ = some text ∧
        u.text = text := by
  have hchildless : (Disk.empty.write ⟨"/p/package.json"⟩
      (manifestAt "/p/package.json").2).Childless ⟨"/p/a.cm"⟩ := by
    intro f text htext
    rcases LocationMap.get?_insert_eq_some_iff.mp htext with ⟨rfl, -⟩ | ⟨-, hnone⟩
    · decide
    · cases hnone
  have hflat : ∀ operation ∈ edited, operation.IsFlat := by
    intro operation hmem
    simp only [edited, List.mem_cons, List.not_mem_nil, or_false] at hmem
    rcases hmem with rfl | rfl | rfl | rfl
    · exact ⟨rfl, hchildless⟩
    · trivial
    · trivial
    · exact ⟨rfl, hchildless⟩
  obtain ⟨ws, hrun, hshows, -⟩ :=
    (run_buffers_shown {} edited hflat).exists_ok (not_splitBy (by decide +kernel))
  have hfacts : ((Workspace.ofConfig {}).run edited).toOption.map (fun ws =>
      ((ws.unit? ⟨"/p/a.cm"⟩).isSome, (ws.buffers.get? ⟨"/p/a.cm"⟩).isSome, ws.pending.keys)) =
        some (true, true, []) := by
    decide +kernel
  rw [hrun] at hfacts
  simp only [Except.toOption, Option.map_some, Option.some.injEq, Prod.mk.injEq,
    Option.isSome_iff_exists] at hfacts
  obtain ⟨⟨u, hu⟩, ⟨text, htext⟩, hpending⟩ := hfacts
  refine ⟨hflat, ws, u, text, hrun, hu, htext, hshows _ u text hu ?_ htext⟩
  rw [LocationSet.toList, hpending]
  exact List.not_mem_nil

end Histories
end ModelWorkspace
