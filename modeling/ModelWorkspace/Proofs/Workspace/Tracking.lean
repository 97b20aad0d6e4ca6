import ModelWorkspace.Proofs.Workspace.History

/-!
# What a workspace tracks

On plain disks whose changes are announced, the model units are files of the disk with
their texts, whatever happens to manifests: those model files that a package owns.  It does
not matter whether a file or the manifest above it came first, whether packages took over
files from each other, or how the announcements are spread over updates.

Deletions are believed.  A file that is there but is called deleted loses its unit, and has
to be called changed to get it back; until then it may be forgotten.  This is the only way
in which a file can be missing.
-/

namespace ModelWorkspace
namespace Change

variable {before : Disk} {changes : List Change} {c : Change} {f : Location}

/-- A file is forgotten if some update erased it, and neither this update nor a later one
was told that it has changed. -/
def Forgotten (changes : List Change) (f : Location) : Prop :=
  ∃ earlier c later, changes = earlier ++ c :: later ∧ Erased c.deleted f ∧
    ∀ d ∈ c :: later, ¬ Covered d.changed f

/-- What was forgotten stays so until it is covered, and what is erased is forgotten. -/
theorem forgotten_concat (h : ¬ Covered c.changed f)
    (hwhy : Erased c.deleted f ∨ Forgotten changes f) : Forgotten (changes ++ [c]) f := by
  rcases hwhy with herased | ⟨earlier, d, later, rfl, herased, hnot⟩
  · refine ⟨changes, c, [], rfl, herased, fun d hd => ?_⟩
    rw [List.mem_singleton.mp hd]
    exact h
  · refine ⟨earlier, d, later ++ [c], by rw [List.append_assoc, List.cons_append], herased, ?_⟩
    intro e he
    rcases List.mem_append.mp (List.cons_append ▸ he) with hbefore | hlast
    · exact hnot e hbefore
    · rw [List.mem_singleton.mp hlast]
      exact h

theorem lastDisk_concat (before : Disk) (changes : List Change) (c : Change) :
    lastDisk before (changes ++ [c]) = c.disk := by
  induction changes generalizing before with
  | nil => rfl
  | cons first rest ih => exact ih first.disk

end Change

namespace Workspace

variable {config : WorkspaceConfig} {ws : Workspace} {disk : Disk}

theorem updates_concat {changes : List Change} {c : Change} {next : Workspace}
    (hrun : updates config changes = .ok ws) (happly : c.operation.apply ws = .ok next) :
    updates config (changes ++ [c]) = .ok next := by
  unfold updates Workspace.run at hrun ⊢
  rw [List.map_append, List.foldlM_append, hrun, List.map_cons, List.map_nil]
  show List.foldlM Operation.apply ws [c.operation] = _
  rw [List.foldlM_cons, happly]
  rfl

/-- The model units behind some updates are those of the last disk, apart from files that
have been forgotten. -/
theorem tracks_updates (config : WorkspaceConfig) (start : Disk) {changes : List Change}
    (hplain : ∀ c ∈ changes, c.disk.Plain)
    (htold : Change.Told Disk.Announced start changes) :
    ∃ ws, updates config changes = .ok ws ∧ ws.Settled ∧ ws.config = config ∧
      ws.Tracks (Change.lastDisk start changes) (Change.Forgotten changes) := by
  -- the last update decides what of the files that were lost before stays forgotten
  induction changes using List.reverseRecOn with
  | nil =>
      exact ⟨Workspace.ofConfig config, rfl, Settled.ofConfig config, rfl,
        Tracks.ofConfig config start _⟩
  | append_singleton changes c ih =>
      obtain ⟨hbefore, hannounced⟩ := Change.told_concat.mp htold
      obtain ⟨ws, hrun, hsettled, hconfig, htracks⟩ :=
        ih (fun d hd => hplain d (List.mem_append_left _ hd)) hbefore
      obtain ⟨report, next, hupdate, hnext, hconfig', htracks'⟩ := htracks.update hsettled
        (hplain c (List.mem_append_right _ List.mem_cons_self)) hannounced
      refine ⟨next, updates_concat hrun ?_, hnext, hconfig'.trans hconfig, ?_⟩
      · show (ws.update c.disk c.changed c.deleted).map (·.2) = .ok next
        rw [hupdate]
        rfl
      · rw [Change.lastDisk_concat]
        refine ⟨htracks'.quiet, htracks'.unit_file, ?_⟩
        intro l text htext hfile hnot howned
        exact (htracks'.file_unit l text htext hfile hnot howned).imp_left fun hlost =>
          Change.forgotten_concat hlost.1 hlost.2

/-- A model unit with a text. -/
def HasModel (ws : Workspace) (l : Location) (text : String) : Prop :=
  ∃ u, ws.unit? l = some u ∧ u.isModel = true ∧ u.text = text

/-- A model file with a text, which a package of the workspace owns. -/
def OwnsFile (ws : Workspace) (disk : Disk) (l : Location) (text : String) : Prop :=
  disk.files.get? l = some text ∧ ws.config.isModelFile l = true ∧
    ws.config.isManifest l = false ∧ (ws.packageOf? l).isSome = true

/-- **The model units mirror the disk.**  On plain disks whose changes are announced, every
model unit is a model file that a package owns now, with the text it has now; and every such
file has a unit unless it has been forgotten. -/
theorem updates_hasModel_iff (config : WorkspaceConfig) (start : Disk) (changes : List Change)
    (hplain : ∀ c ∈ changes, c.disk.Plain)
    (htold : Change.Told Disk.Announced start changes) :
    ∃ ws, updates config changes = .ok ws ∧ ws.config = config ∧
      ∀ l text,
        (ws.HasModel l text → ws.OwnsFile (Change.lastDisk start changes) l text) ∧
        (¬ Change.Forgotten changes l →
          (ws.HasModel l text ↔ ws.OwnsFile (Change.lastDisk start changes) l text)) := by
  obtain ⟨ws, hrun, hsettled, hconfig, htracks⟩ := tracks_updates config start hplain htold
  have hsound : ∀ l text, ws.HasModel l text →
      ws.OwnsFile (Change.lastDisk start changes) l text := by
    rintro l text ⟨u, hu, hmodel, rfl⟩
    obtain ⟨hfile, htext⟩ := htracks.unit_file l u hu hmodel
    exact ⟨htext, hfile, (hsettled.wellFormed l u hu).isManifest_eq_false hmodel,
      hsettled.owned l u hu hmodel⟩
  refine ⟨ws, hrun, hconfig, fun l text => ⟨hsound l text, fun hnot => ⟨hsound l text, ?_⟩⟩⟩
  rintro ⟨htext, hfile, hmanifest, howned⟩
  obtain ⟨u, hu, hmodel⟩ :=
    (htracks.file_unit l text htext hfile hmanifest howned).resolve_left hnot
  -- the unit has the text of the file, because all units have
  obtain ⟨-, hcurrent⟩ := htracks.unit_file l u hu hmodel
  exact ⟨u, hu, hmodel, Option.some.inj (hcurrent.symm.trans htext)⟩

end Workspace

namespace Histories

open Change Workspace

/-- A file is there before any manifest, then a package takes it over from an outer one, and
in the end the manifest of this package breaks. -/
def broken : List Change :=
  edits Disk.empty
    [entityAt "/p/q/a.cm" "X", manifestAt "/p/package.json", manifestAt "/p/q/package.json",
      (⟨"/p/q/package.json"⟩, "broken")]

theorem plain_broken : ∀ c ∈ broken, c.disk.Plain := by
  let places : List Location := [⟨"/p/q/a.cm"⟩, ⟨"/p/package.json"⟩, ⟨"/p/q/package.json"⟩]
  have hpath : ∀ l ∈ places, l = Location.ofPath l.path := by decide +kernel
  have hapart : ∀ a ∈ places, ∀ b ∈ places, a.isBelow b = false := by decide +kernel
  refine plain_edits_empty hpath hapart ?_
  decide +kernel

theorem updates_hasModel_iff_broken :
    (∀ c ∈ broken, c.disk.Plain) ∧ Told Disk.Announced Disk.empty broken ∧
      ∃ ws, updates {} broken = .ok ws ∧
        (ws.packageOf? ⟨"/p/q/a.cm"⟩).map (·.root) = some ⟨"/p"⟩ ∧
        ws.HasModel ⟨"/p/q/a.cm"⟩ (entityAt "/p/q/a.cm" "X").2 := by
  have htold : Told Disk.Announced Disk.empty broken :=
    (told_edits _ _).mono fun _ _ _ _ h => h.toAnnounced
  obtain ⟨ws, hrun, hconfig, hmodels⟩ :=
    updates_hasModel_iff {} Disk.empty broken plain_broken htold
  have howner : (ws.packageOf? ⟨"/p/q/a.cm"⟩).map (·.root) = some ⟨"/p"⟩ := by
    refine eq_of_updates (f := fun ws => (ws.packageOf? ⟨"/p/q/a.cm"⟩).map (·.root)) hrun ?_
    decide +kernel
  have hremembered : ¬ Forgotten broken ⟨"/p/q/a.cm"⟩ := by
    have hnone : ∀ c ∈ broken, c.deleted = [] := by decide +kernel
    rintro ⟨earlier, c, later, hsplit, ⟨d, hd, -⟩, -⟩
    rw [hnone c (hsplit ▸ List.mem_append_right _ List.mem_cons_self)] at hd
    exact absurd hd List.not_mem_nil
  refine ⟨plain_broken, htold, ws, hrun, howner,
    ((hmodels _ _).2 hremembered).mpr ⟨?_, ?_, ?_, ?_⟩⟩
  · decide +kernel
  · rw [hconfig]
    decide +kernel
  · rw [hconfig]
    decide +kernel
  · obtain ⟨p, hp, -⟩ := Option.map_eq_some_iff.mp howner
    rw [hp]
    rfl

theorem plain_spurious : ∀ c ∈ spurious, c.disk.Plain := by
  let places : List Location := [⟨"/p/a.cm"⟩, ⟨"/p/package.json"⟩]
  let files := [manifestAt "/p/package.json", entityAt "/p/a.cm" "X"]
  have hpath : ∀ l ∈ places, l = Location.ofPath l.path := by decide +kernel
  have hapart : ∀ a ∈ places, ∀ b ∈ places, a.isBelow b = false := by decide +kernel
  have hfiles : ∀ file ∈ files, file.1 ∈ places := by decide +kernel
  have hbefore := plain_edits_empty hpath hapart hfiles
  intro c hc
  rcases List.mem_append.mp hc with hc | hc
  · exact hbefore c hc
  · -- the last update finds the disk of the one before
    rw [List.mem_singleton.mp hc]
    exact hbefore ⟨lastDisk Disk.empty (edits Disk.empty files), [⟨"/p/a.cm"⟩], []⟩
      (List.mem_cons_of_mem _ List.mem_cons_self)

/-- A model file that a package owns has no unit if it was called deleted. -/
theorem deleted_file_stays_away :
    (∀ c ∈ spurious, c.disk.Plain) ∧ Told Disk.Announced Disk.empty spurious ∧
      ∃ ws, updates {} spurious = .ok ws ∧
        ws.OwnsFile (lastDisk Disk.empty spurious) ⟨"/p/a.cm"⟩ (entityAt "/p/a.cm" "X").2 ∧
        ws.unit? ⟨"/p/a.cm"⟩ = none := by
  obtain ⟨ws, hrun, -, hconfig, -⟩ := tracks_updates {} Disk.empty plain_spurious told_spurious
  let facts := fun (ws : Workspace) =>
    ((ws.packageOf? ⟨"/p/a.cm"⟩).isSome, (ws.unit? ⟨"/p/a.cm"⟩).isSome)
  have hfacts : facts ws = (true, false) := by
    refine eq_of_updates (f := facts) hrun ?_
    decide +kernel
  obtain ⟨howned, hunit⟩ := Prod.mk.inj hfacts
  refine ⟨plain_spurious, told_spurious, ws, hrun, ⟨?_, ?_, ?_, howned⟩, ?_⟩
  · decide +kernel
  · rw [hconfig]
    decide +kernel
  · rw [hconfig]
    decide +kernel
  · exact Option.isNone_iff_eq_none.mp (Option.isSome_eq_false_iff.mp hunit)

end Histories
end ModelWorkspace
