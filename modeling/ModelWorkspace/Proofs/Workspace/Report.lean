import ModelWorkspace.Proofs.Text.Location
import ModelWorkspace.Proofs.Workspace.Loading

/-!
# What is reported of a disk

A plain disk has no aliases and no file below a file, and all its files can be read.  What
happens between two disks is announced when every file that is new or has another text is
covered by a changed location, and every file that is gone is deleted.  It is reported when,
besides, a file that is there although something around it is deleted is covered by a changed
location.

An update looks at all tracked files that changed locations cover.
-/

namespace ModelWorkspace

/-- Some locations cover a file: it is one of them or lies below one of them. -/
def Covered (ls : List Location) (f : Location) : Prop :=
  ∃ l ∈ ls, f.isWithin l = true

theorem Covered.mono {ls others : List Location} {f : Location} (h : Covered ls f)
    (hsub : ls ⊆ others) : Covered others f := by
  obtain ⟨l, hl, hwithin⟩ := h
  exact ⟨l, hsub hl, hwithin⟩

theorem covered_of_mem {ls : List Location} {f : Location} (h : f ∈ ls) : Covered ls f :=
  ⟨f, h, f.isWithin_refl⟩

namespace Disk

/-- A disk without aliases, with files at locations of paths, none below another, which can all
be read. -/
structure Plain (disk : Disk) : Prop where
  aliases_eq : disk.aliases = LocationMap.empty
  unreadable_eq : disk.unreadable = LocationMap.empty
  isPath : ∀ f text, disk.files.get? f = some text → f.IsPath
  not_nested : ∀ f text g other, disk.files.get? f = some text →
    disk.files.get? g = some other → g.isBelow f = false

/-- No file lies below a location. -/
def Childless (disk : Disk) (l : Location) : Prop :=
  ∀ f text, disk.files.get? f = some text → f.isBelow l = false

/-- What has become of the files of a disk is announced. -/
structure Announced (old new : Disk) (changed deleted : List Location) : Prop where
  written : ∀ f text, new.files.get? f = some text → old.files.get? f ≠ some text →
    Covered changed f
  removed : ∀ f text, old.files.get? f = some text → new.files.get? f = none → f ∈ deleted

/-- What has become of the files is announced, and what is called deleted but is still
there is called changed, too. -/
structure Reported (old new : Disk) (changed deleted : List Location) : Prop extends
    Announced old new changed deleted where
  restored : ∀ f text, new.files.get? f = some text → Covered deleted f → Covered changed f

/-- A file that is there has the text it had before, or is covered. -/
theorem Announced.same_or_covered {old new : Disk} {changed deleted : List Location}
    (h : old.Announced new changed deleted) {f : Location} {text : String}
    (htext : new.files.get? f = some text) :
    old.files.get? f = some text ∨ Covered changed f := by
  by_cases hsame : old.files.get? f = some text
  · exact Or.inl hsame
  · exact Or.inr (h.written f text htext hsame)

/-- A manifest on the disk declares a package. -/
def Declares (disk : Disk) (config : WorkspaceConfig) (m : Location) (p : Package) : Prop :=
  ∃ text, disk.files.get? m = some text ∧ config.isManifest m = true ∧
    (Manifest.ofText text).toOption.bind (Package.ofManifest m) = some p

variable {disk : Disk} {config : WorkspaceConfig} {m : Location} {p : Package}

/-- Without aliases every file is at one location. -/
theorem canonical_of_aliases (h : disk.aliases = LocationMap.empty) (l : Location) :
    disk.canonical l = l := by
  refine canonical_eq (resolve_of_unaliased ?_)
  rw [h]
  rfl

/-- Without aliases nothing is cut. -/
theorem not_splits_of_aliases (h : disk.aliases = LocationMap.empty) (l : Location) :
    ¬ disk.Splits l := by
  refine not_splits ?_ l
  rw [h]
  rfl

namespace Plain

theorem canonical_eq (h : disk.Plain) (l : Location) : disk.canonical l = l :=
  canonical_of_aliases h.aliases_eq l

theorem not_splits (h : disk.Plain) (l : Location) : ¬ disk.Splits l :=
  not_splits_of_aliases h.aliases_eq l

/-- What is not there is all that cannot be loaded. -/
theorem ofAnswer_textAt (h : disk.Plain) (l place : Location) :
    Loaded.ofAnswer (disk.textAt l place) =
      match disk.files.get? place with
      | some text => .text text
      | none => .missing := by
  have hreadable : disk.unreadable.get? place = none := by
    rw [h.unreadable_eq]
    rfl
  unfold textAt
  rw [hreadable]
  cases disk.files.get? place <;> rfl

theorem map_canonical (h : disk.Plain) (ls : List Location) : ls.map disk.canonical = ls := by
  rw [List.map_congr_left fun l _ => h.canonical_eq l, List.map_id']

/-- The tracked files that a directory leads to. -/
theorem mem_scan_iff (h : disk.Plain) {ws : Workspace} {directory l : Location} :
    l ∈ ws.scanned disk directory ↔
      (∃ text, disk.files.get? l = some text) ∧ l.isBelow directory = true ∧
        ws.config.isTracked l = true := by
  unfold Workspace.scanned Workspace.trackedAmong filesBelow
  rw [LocationSet.mem_toList_ofList, h.map_canonical, h.canonical_eq, List.mem_filter,
    List.mem_filter, LocationMap.mem_keys_iff, and_assoc]

/-- The tracked files that changed locations cover are looked at. -/
theorem mem_reached (h : disk.Plain) {ws : Workspace} {changed : List Location}
    {l : Location} {text : String} (hl : disk.files.get? l = some text)
    (hcovered : Covered changed l) (htracked : ws.config.isTracked l = true) :
    l ∈ ws.reached disk changed := by
  obtain ⟨c, hc, hwithin⟩ := hcovered
  unfold Workspace.reached
  refine List.mem_flatMap.mpr ⟨c, hc, ?_⟩
  unfold Workspace.reachedFrom
  dsimp only
  rw [h.canonical_eq]
  rcases Location.isWithin_iff_eq_or_isBelow.mp hwithin with rfl | hbelow
  · -- no file lies below a file, so the location is not taken for a directory
    have hfile : disk.holdsFiles l = false := by
      unfold holdsFiles
      rw [h.canonical_eq, List.any_eq_false]
      intro f hf
      obtain ⟨other, hother⟩ := LocationMap.mem_keys_iff.mp hf
      rw [h.not_nested l text f other hl hother]
      exact Bool.false_ne_true
    rw [hfile, htracked]
    exact List.mem_singleton_self l
  · have hdirectory : disk.holdsFiles c = true := by
      unfold holdsFiles
      rw [h.canonical_eq]
      exact List.any_eq_true.mpr ⟨l, LocationMap.mem_keys_iff.mpr ⟨text, hl⟩, hbelow⟩
    rw [if_pos hdirectory]
    exact h.mem_scan_iff.mpr ⟨⟨text, hl⟩, hbelow, htracked⟩

/-- What is looked at has no file below it: it is a file itself, or there is nothing. -/
theorem childless_of_mem_reached (h : disk.Plain) {ws : Workspace}
    {changed : List Location} {l : Location} (hl : l ∈ ws.reached disk changed) :
    disk.Childless l := by
  unfold Workspace.reached at hl
  obtain ⟨c, -, hl⟩ := List.mem_flatMap.mp hl
  unfold Workspace.reachedFrom at hl
  dsimp only at hl
  rw [h.canonical_eq] at hl
  split at hl
  · obtain ⟨⟨text, htext⟩, -⟩ := h.mem_scan_iff.mp hl
    exact fun f other hf => h.not_nested l text f other htext hf
  · rename_i hdirectory
    split at hl
    · rw [List.mem_singleton.mp hl]
      intro f text hf
      unfold holdsFiles at hdirectory
      rw [h.canonical_eq, List.any_eq_true] at hdirectory
      refine Bool.eq_false_of_not_eq_true fun hbelow => hdirectory ⟨f, ?_, hbelow⟩
      exact LocationMap.mem_keys_iff.mpr ⟨text, hf⟩
    · exact absurd hl List.not_mem_nil

end Plain

/-- What a directory leads to is on the disk. -/
theorem mem_of_mem_scan {ws : Workspace} {directory l : Location}
    (h : l ∈ ws.scanned disk directory) : l ∈ disk.files.keys.map disk.canonical := by
  obtain ⟨file, hfile, heq⟩ := List.mem_map.mp
    (List.mem_of_mem_filter (LocationSet.mem_toList_ofList.mp h))
  exact List.mem_map.mpr ⟨file, List.mem_of_mem_filter hfile, heq⟩

/-- The files that changed locations lead to are where these lead, or where files lead. -/
theorem mem_of_mem_reached {ws : Workspace} {changed : List Location} {l : Location}
    (h : l ∈ ws.reached disk changed) :
    l ∈ (disk.files.keys ++ changed).map disk.canonical := by
  rw [List.map_append, List.mem_append]
  obtain ⟨c, hc, hl⟩ := List.mem_flatMap.mp h
  unfold Workspace.reachedFrom at hl
  dsimp only at hl
  split at hl
  · exact .inl (mem_of_mem_scan hl)
  · split at hl
    · exact .inr (List.mem_map.mpr ⟨c, hc, (List.mem_singleton.mp hl).symm⟩)
    · exact absurd hl List.not_mem_nil

namespace Declares

theorem manifest_eq (h : disk.Declares config m p) : p.manifest = m ∧ m.parent = some p.root := by
  obtain ⟨text, -, -, hp⟩ := h
  exact (Package.isDeclared_of_bind hp).2

end Declares

/-- In one directory there is one manifest. -/
theorem eq_of_isManifest {a b r : Location} (ha : a.IsResolved) (hb : b.IsResolved)
    (hma : config.isManifest a = true) (hmb : config.isManifest b = true)
    (hpa : a.parent = some r) (hpb : b.parent = some r) : a = b := by
  unfold WorkspaceConfig.isManifest at hma hmb
  exact ha.eq_of_parent_eq hb hpa hpb ((beq_iff_eq.mp hma).trans (beq_iff_eq.mp hmb).symm)

end Disk
end ModelWorkspace
