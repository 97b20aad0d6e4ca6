import ModelWorkspace.Proofs.Workspace.Faithful
import ModelWorkspace.Proofs.Workspace.Run

/-!
# Where texts come from

A workspace makes up no texts: what its units and buffers hold was put into a buffer or has
been on a disk at an update.  So what is true of the texts in a workspace and of those on
the disk is true of all texts that an update leads to (`HasTexts.loaded`).
-/

namespace ModelWorkspace

/-- All texts of files on a disk have a property. -/
def Disk.HasTexts (disk : Disk) (P : String → Prop) : Prop :=
  ∀ l text, disk.files.get? l = some text → P text

namespace Workspace

/-- All texts of units and buffers have a property. -/
structure HasTexts (ws : Workspace) (P : String → Prop) : Prop where
  units : ∀ l u, ws.units.get? l = some u → P u.text
  buffers : ∀ l text, ws.buffers.get? l = some text → P text

namespace HasTexts

variable {ws other : Workspace} {P : String → Prop} {disk : Disk}

theorem ofConfig (config : WorkspaceConfig) (P : String → Prop) :
    (Workspace.ofConfig config).HasTexts P where
  units := fun _ _ h => nomatch h
  buffers := fun _ _ h => nomatch h

/-- Where no text is new, nothing is to be shown. -/
theorem mono (h : ws.HasTexts P)
    (hunits : ∀ l u, other.units.get? l = some u →
      ∃ v, ws.units.get? l = some v ∧ u.text = v.text)
    (hbuffers : ∀ l text, other.buffers.get? l = some text → ws.buffers.get? l = some text) :
    other.HasTexts P where
  units := by
    intro l u hu
    obtain ⟨v, hv, htext⟩ := hunits l u hu
    rw [htext]
    exact h.units l v hv
  buffers := fun l text htext => h.buffers l text (hbuffers l text htext)

/-- What is read is the text of a buffer or of a file. -/
theorem read (h : ws.HasTexts P) (hdisk : disk.HasTexts P) {l : Location} {text : String}
    (hread : ws.found disk l = .text text) : P text := by
  rcases buffer_or_file_of_found hread with hbuffer | ⟨-, hfile⟩
  · exact h.buffers l text hbuffer
  · exact hdisk _ text hfile

end HasTexts
end Workspace

namespace Build

variable {b : Build} {P : String → Prop} {disk : Disk}

/-! ## Removing files -/

theorem hasTexts_removeUnit (h : b.workspace.HasTexts P) (l : Location) :
    (b.removeUnit l).workspace.HasTexts P := by
  refine h.mono (fun other u hu => ?_) fun other text htext => ?_
  · exact ⟨u, (LocationMap.get?_erase_eq_some_iff.mp hu).2, rfl⟩
  · exact (LocationMap.get?_erase_eq_some_iff.mp htext).2

theorem hasTexts_setPackages (h : b.workspace.HasTexts P) (packages : PackageGraph) :
    (b.setPackages packages).workspace.HasTexts P :=
  ⟨h.units, h.buffers⟩

theorem hasTexts_delete (h : b.workspace.HasTexts P) (l : Location) :
    (b.delete l).workspace.HasTexts P :=
  delete_induction (Q := fun b => b.workspace.HasTexts P) (fun _ l hb => hasTexts_removeUnit hb l)
    (fun _ packages hb => hasTexts_setPackages hb packages) h l

theorem hasTexts_deleteAll (h : b.workspace.HasTexts P) (ls : List Location) :
    (ls.foldl delete b).workspace.HasTexts P :=
  deleteAll_induction (Q := fun b => b.workspace.HasTexts P) (fun _ l hb => hasTexts_delete hb l)
    h ls

/-! ## Loading files -/

/-- A unit with a text that was read takes the place of another one. -/
theorem hasTexts_put (h : b.workspace.HasTexts P) {u : SourceUnit} (hu : P u.text)
    {other : Build} (hunits : other.workspace.units = b.workspace.units.put u)
    (hbuffers : other.workspace.buffers = b.workspace.buffers) :
    other.workspace.HasTexts P where
  units := by
    intro l v hv
    rw [hunits] at hv
    rcases LocationMap.get?_insert_eq_some_iff.mp hv with ⟨-, rfl⟩ | ⟨-, hv⟩
    · exact hu
    · exact h.units l v hv
  buffers := by
    rw [hbuffers]
    exact h.buffers

theorem hasTexts_declaredPackage (h : b.workspace.HasTexts P) (disk : Disk) (l : Location)
    (manifest : Option Manifest) :
    (b.declaredPackage disk l manifest).1.workspace.HasTexts P :=
  declaredPackage_induction (Q := fun next => next.workspace.HasTexts P) h
    (fun packages => hasTexts_setPackages h packages) disk l manifest

theorem hasTexts_loadedManifest (h : b.workspace.HasTexts P) (hdisk : disk.HasTexts P)
    (l : Location) : (b.loadedManifest disk l).1.workspace.HasTexts P := by
  rcases b.loadedManifest_cases disk l with ⟨-, heq⟩ | ⟨-, heq⟩ | ⟨text, hread, heq⟩
  · simp only [heq]
    exact hasTexts_delete h l
  · simp only [heq]
    exact h
  · rw [heq]
    have htext : P (SourceUnit.ofManifestText l text).text := h.read hdisk hread
    have hstored : (b.withManifest l text).workspace.HasTexts P :=
      hasTexts_put h htext rfl rfl
    exact hasTexts_declaredPackage hstored disk l (Manifest.ofText text).toOption

theorem hasTexts_loadedManifests (h : b.workspace.HasTexts P) (hdisk : disk.HasTexts P)
    {models found : LocationSet} {q : ManifestQueue} {last : Build}
    (hload : loadedManifests disk b models q = (last, found)) :
    last.workspace.HasTexts P := by
  let Q := fun (b : Build) (_ : LocationSet) (_ : ManifestQueue) => b.workspace.HasTexts P
  have hstep : ∀ b models l waiting unseen, Q b models ⟨l :: waiting, unseen⟩ →
      Q (b.loadedManifest disk l).1 (models.addAll (b.newModels disk l))
        (ManifestQueue.offer ⟨waiting, unseen⟩ (b.newFiles disk l)) :=
    fun b _ l _ _ hb => hasTexts_loadedManifest hb hdisk l
  have hstart : Q b models q := h
  obtain ⟨last', found', unseen, hload', hlast⟩ := loadedManifests_induction hstep hstart
  rw [hload] at hload'
  cases hload'
  exact hlast

theorem hasTexts_loadedModel (h : b.workspace.HasTexts P) (hdisk : disk.HasTexts P)
    (l : Location) : (loadedModel disk b l).workspace.HasTexts P := by
  rcases loadedModel_cases disk b l with ⟨-, heq⟩ | ⟨-, heq⟩ |
    ⟨text, hread, ⟨-, heq⟩ | ⟨-, heq⟩⟩
  · rw [heq]
    exact hasTexts_removeUnit h l
  · rw [heq]
    exact h
  · rw [heq]
    exact ⟨h.units, h.buffers⟩
  · rw [heq]
    exact hasTexts_put (u := SourceUnit.ofDocument l text (Document.ofText text)) h
      (h.read hdisk hread) rfl rfl

theorem hasTexts_loaded (h : b.workspace.HasTexts P) (hdisk : disk.HasTexts P)
    (models : LocationSet) : (b.loaded disk models).workspace.HasTexts P := by
  have hdropped : b.dropOrphans.workspace.HasTexts P :=
    removeAll_induction (Q := fun b => b.workspace.HasTexts P)
      (fun _ l hb => hasTexts_removeUnit hb l) h _
  have hreset : b.reset.workspace.HasTexts P := by
    refine hdropped.mono (fun l u hu => ?_) fun _ _ htext => htext
    obtain ⟨v, hv, rfl⟩ := Option.map_eq_some_iff.mp
      ((LocationMap.get?_map _ _ _).symm.trans hu)
    exact ⟨v, hv, (sameSource_resetUnit v).text_eq⟩
  exact loaded_induction (Q := fun b => b.workspace.HasTexts P)
    (fun _ l hb => hasTexts_loadedModel hb hdisk l) (fun _ => hreset) h models

/-- Indexing, linking and validating make up no texts either. -/
theorem hasTexts_finished {models : LocationSet} (h : (b.loaded disk models).workspace.HasTexts P) :
    (b.finished disk models).workspace.HasTexts P := by
  refine h.mono (fun l u hu => ?_) fun l text htext => ?_
  · obtain ⟨f, hf, hget⟩ := get?_finished b disk models l
    rw [hget] at hu
    obtain ⟨v, hv, rfl⟩ := Option.map_eq_some_iff.mp hu
    exact ⟨v, hv, (hf v).text_eq⟩
  · obtain ⟨units, heq⟩ := b.exists_finished_eq disk models
    rw [heq] at htext
    exact htext

end Build

namespace Workspace

variable {ws : Workspace} {P : String → Prop}

/-- An update takes its texts from buffers and the disk, up to the loading of all files. -/
theorem HasTexts.loaded (h : ws.HasTexts P) {disk : Disk} (hdisk : disk.HasTexts P)
    {changed deleted : List Location} {last : Build} {models : LocationSet}
    (hload : Build.loadedManifests disk (takePending (ws.begun disk deleted)).2
      ((ws.begun disk deleted).requestedModels disk changed)
      ((ws.begun disk deleted).queue disk changed) = (last, models)) :
    (last.loaded disk models).workspace.HasTexts P := by
  have hbegun : (ws.begun disk deleted).workspace.HasTexts P :=
    Build.hasTexts_deleteAll (b := { workspace := ws }) h _
  have htaken : (takePending (ws.begun disk deleted)).2.workspace.HasTexts P :=
    ⟨hbegun.units, hbegun.buffers⟩
  exact Build.hasTexts_loaded (Build.hasTexts_loadedManifests htaken hdisk hload) hdisk models

end Workspace
end ModelWorkspace
