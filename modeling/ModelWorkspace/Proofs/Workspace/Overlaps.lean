import ModelWorkspace.Proofs.Workspace.Registered

/-!
# Deletions that overlap

The locations that one update deletes may overlap: a file and its directory, a manifest and
the root of its package, a directory and one below it.  They are deleted one after the other,
and each deletion looks at what the others have left.  Still their order does not matter, nor
how often each is named.  A deletion removes files and takes packages away, and whether it does
so to one of them depends on this file or package alone; what is gone by then is only not
removed a second time.

The one trace of the order is the list of deleted files in the report.
-/

namespace ModelWorkspace

namespace Workspace

/-- The workspace without a file, its elements and its buffer. -/
def withoutFile (ws : Workspace) (l : Location) : Workspace :=
  { ws with
    units := ws.units.erase l
    index := ws.index.withoutLocation l
    buffers := ws.buffers.erase l
    pending := ws.pending.erase l }

theorem withoutFile_comm (ws : Workspace) (l m : Location) :
    (ws.withoutFile l).withoutFile m = (ws.withoutFile m).withoutFile l := by
  unfold withoutFile
  dsimp only
  rw [ws.units.erase_comm, ws.index.withoutLocation_comm, ws.buffers.erase_comm,
    ws.pending.erase_comm]

theorem withoutFile_self (ws : Workspace) (l : Location) :
    (ws.withoutFile l).withoutFile l = ws.withoutFile l := by
  unfold withoutFile
  dsimp only
  rw [ws.units.erase_self, ws.index.withoutLocation_self, ws.buffers.erase_self,
    ws.pending.erase_self]

end Workspace

/-- Reports that differ at most in the order in which they list deleted files. -/
structure BuildReport.SameUpToOrder (report other : BuildReport) : Prop where
  deleted : report.deleted.Perm other.deleted
  others : other = { report with deleted := other.deleted }

namespace Build

variable {old : Workspace} {b c d : Build} {l m : Location} {ls ms : List Location}

/-- The build with another list of deleted files in its report. -/
def withDeleted (b : Build) (deleted : List Location) : Build :=
  { b with report := { b.report with deleted := deleted } }

/-- Builds that differ at most in the order in which their reports list deleted files. -/
def SameUpToOrder (b c : Build) : Prop :=
  ∃ deleted, b.report.deleted.Perm deleted ∧ c = b.withDeleted deleted

namespace SameUpToOrder

theorem refl (b : Build) : SameUpToOrder b b := ⟨b.report.deleted, .refl _, rfl⟩

theorem symm (h : SameUpToOrder b c) : SameUpToOrder c b := by
  obtain ⟨deleted, hperm, rfl⟩ := h
  exact ⟨b.report.deleted, hperm.symm, rfl⟩

theorem trans (h : SameUpToOrder b c) (h' : SameUpToOrder c d) : SameUpToOrder b d := by
  obtain ⟨deleted, hperm, rfl⟩ := h
  obtain ⟨deleted', hperm', rfl⟩ := h'
  exact ⟨deleted', hperm.trans hperm', rfl⟩

theorem workspace_eq (h : SameUpToOrder b c) : c.workspace = b.workspace := by
  obtain ⟨deleted, -, rfl⟩ := h
  rfl

theorem packagesChanged_eq (h : SameUpToOrder b c) : c.packagesChanged = b.packagesChanged := by
  obtain ⟨deleted, -, rfl⟩ := h
  rfl

theorem report (h : SameUpToOrder b c) : b.report.SameUpToOrder c.report := by
  obtain ⟨deleted, hperm, rfl⟩ := h
  exact ⟨hperm, rfl⟩

/-- A stage that does nothing with the list of deleted files does not see its order. -/
theorem map (h : SameUpToOrder b c) (f : Build → Build)
    (hf : ∀ b deleted, f (b.withDeleted deleted) = (f b).withDeleted deleted)
    (hkept : ∀ b, (f b).report.deleted = b.report.deleted) : SameUpToOrder (f b) (f c) := by
  obtain ⟨deleted, hperm, rfl⟩ := h
  rw [hf]
  exact ⟨deleted, hkept b ▸ hperm, rfl⟩

theorem foldl {f : Build → Location → Build}
    (hf : ∀ {b c} l, SameUpToOrder b c → SameUpToOrder (f b l) (f c l))
    (h : SameUpToOrder b c) (ls : List Location) :
    SameUpToOrder (ls.foldl f b) (ls.foldl f c) := by
  induction ls generalizing b c with
  | nil => exact h
  | cons l rest ih => exact ih (hf l h)

end SameUpToOrder

/-! ## Steps without an order -/

/-- A step that may be made for several locations in any order, and for each of them more
than once. -/
structure Unordered (Q : Build → Prop) (step : Build → Location → Build) : Prop where
  keep : ∀ {b} l, Q b → Q (step b l)
  congr : ∀ {b c} l, SameUpToOrder b c → SameUpToOrder (step b l) (step c l)
  comm : ∀ {b} l m, Q b → SameUpToOrder (step (step b l) m) (step (step b m) l)
  again : ∀ {b} l, Q b → SameUpToOrder (step (step b l) l) (step b l)

namespace Unordered

variable {Q : Build → Prop} {step : Build → Location → Build}

theorem foldl_perm (h : Unordered Q step) (hb : Q b) (hperm : ls.Perm ms) :
    SameUpToOrder (ls.foldl step b) (ms.foldl step b) := by
  -- only a swap of two neighbours is about the step
  induction hperm generalizing b with
  | nil => exact .refl b
  | cons l _ ih => exact ih (h.keep l hb)
  | swap l m rest => exact (h.comm m l hb).foldl h.congr rest
  | trans _ _ ih ih' => exact (ih hb).trans (ih' hb)

/-- A step in front that is made again later makes no difference. -/
theorem foldl_of_mem (h : Unordered Q step) (hb : Q b) (hl : l ∈ ls) :
    SameUpToOrder (ls.foldl step (step b l)) (ls.foldl step b) := by
  induction ls generalizing b with
  | nil => exact absurd hl List.not_mem_nil
  | cons first rest ih =>
      rw [List.foldl_cons, List.foldl_cons]
      rcases List.mem_cons.mp hl with rfl | hl
      · exact (h.again l hb).foldl h.congr rest
      · exact ((h.comm l first hb).foldl h.congr rest).trans (ih (h.keep first hb) hl)

theorem foldl_dedup (h : Unordered Q step) (hb : Q b) (ls : List Location) :
    SameUpToOrder (ls.foldl step b) (ls.dedup.foldl step b) := by
  induction ls generalizing b with
  | nil => exact .refl b
  | cons l rest ih =>
      by_cases hl : l ∈ rest
      · rw [List.dedup_cons_of_mem hl]
        exact (h.foldl_of_mem hb hl).trans (ih hb)
      · rw [List.dedup_cons_of_notMem hl]
        exact ih (h.keep l hb)

/-- Only the members of a list matter. -/
theorem foldl_of_mem_iff (h : Unordered Q step) (hb : Q b) (hsame : ∀ l, l ∈ ls ↔ l ∈ ms) :
    SameUpToOrder (ls.foldl step b) (ms.foldl step b) := by
  have hperm : ls.dedup.Perm ms.dedup := by
    refine (List.perm_ext_iff_of_nodup ls.nodup_dedup ms.nodup_dedup).mpr fun l => ?_
    rw [List.mem_dedup, List.mem_dedup, hsame]
  exact (h.foldl_dedup hb ls).trans ((h.foldl_perm hb hperm).trans (h.foldl_dedup hb ms).symm)

end Unordered

/-! ## Removing files -/

/-- What the removal of a file adds to the report: the file, if it is tracked. -/
def reported (b : Build) (l : Location) : List Location :=
  if b.workspace.units.contains l then [l] else []

theorem removeUnit_eq (b : Build) (l : Location) :
    b.removeUnit l =
      { b with
        workspace := b.workspace.withoutFile l
        report := { b.report with deleted := b.report.deleted ++ b.reported l }
        touched := b.touched.add l } := by
  unfold removeUnit reported
  dsimp only
  split
  · rfl
  · rw [List.append_nil]
    rfl

theorem reported_removeUnit_of_ne (b : Build) (h : m ≠ l) :
    (b.removeUnit l).reported m = b.reported m := by
  unfold reported
  rw [removeUnit_eq]
  exact congrArg (if · = true then [m] else []) (LocationMap.contains_erase_of_ne _ h)

theorem reported_removeUnit_self (b : Build) (l : Location) :
    (b.removeUnit l).reported l = [] := by
  have hgone : (b.removeUnit l).workspace.units.contains l = false :=
    LocationMap.contains_erase_self _ l
  unfold reported
  rw [hgone]
  exact if_neg Bool.false_ne_true

theorem unordered_removeUnit : Unordered (fun _ => True) removeUnit where
  keep := fun _ _ => trivial
  congr := by
    rintro b c l ⟨deleted, hperm, rfl⟩
    rw [removeUnit_eq, removeUnit_eq]
    exact ⟨deleted ++ b.reported l, hperm.append_right _, rfl⟩
  comm := by
    intro b l m _
    by_cases h : m = l
    · rw [h]
      exact .refl _
    · have hm := b.reported_removeUnit_of_ne h
      have hl := b.reported_removeUnit_of_ne (Ne.symm h)
      rw [removeUnit_eq, removeUnit_eq (b.removeUnit m), hm, hl, removeUnit_eq b,
        removeUnit_eq b, b.workspace.withoutFile_comm l m, LocationSet.add_comm b.touched l m]
      -- the files are reported in the order in which they go
      refine ⟨_, ?_, rfl⟩
      show ((b.report.deleted ++ b.reported l) ++ b.reported m).Perm
        ((b.report.deleted ++ b.reported m) ++ b.reported l)
      rw [List.append_assoc, List.append_assoc]
      exact List.perm_append_comm.append_left _
  again := by
    -- a file that is gone is not reported once more
    intro b l _
    rw [removeUnit_eq, reported_removeUnit_self, removeUnit_eq b, List.append_nil,
      Workspace.withoutFile_self, LocationSet.add_self]
    exact .refl _

/-- Only which files are removed matters. -/
theorem removeAll_of_mem_iff (b : Build) (hsame : ∀ l, l ∈ ls ↔ l ∈ ms) :
    SameUpToOrder (ls.foldl removeUnit b) (ms.foldl removeUnit b) :=
  unordered_removeUnit.foldl_of_mem_iff trivial hsame

/-! ## One deletion -/

/-- Whether the deletion of a location takes a package away. -/
def takesAway (config : WorkspaceConfig) (l root : Location) (p : Package) : Bool :=
  if l.extension.isSome then config.isManifest l && p.manifest == l else root.isWithin l

/-- The build without some packages. -/
def dropPackages (b : Build) (gone : Location → Package → Bool) : Build :=
  { b with
    workspace := { b.workspace with
      packages := ⟨b.workspace.packages.packages.filter fun root p => !gone root p⟩ }
    packagesChanged := b.packagesChanged ||
      b.workspace.packages.packages.entries.any fun entry => gone entry.1 entry.2 }

theorem SameUpToOrder.setPackages (h : SameUpToOrder b c) (packages : PackageGraph) :
    SameUpToOrder (b.setPackages packages) (c.setPackages packages) :=
  h.map (Build.setPackages · packages) (fun _ _ => rfl) fun _ => rfl

theorem SameUpToOrder.dropPackages (h : SameUpToOrder b c) (gone : Location → Package → Bool) :
    SameUpToOrder (b.dropPackages gone) (c.dropPackages gone) :=
  h.map (Build.dropPackages · gone) (fun _ _ => rfl) fun _ => rfl

theorem any_or_any_filter_not {α : Type} (p q : α → Bool) (xs : List α) :
    (xs.any p || (xs.filter fun x => !p x).any q) = xs.any fun x => p x || q x := by
  induction xs with
  | nil => rfl
  | cons x rest ih =>
      cases h : p x with
      | true => simp [h]
      | false => simpa [h, Bool.or_left_comm] using congrArg (q x || ·) ih

/-- Packages leave in two steps, or in one. -/
theorem dropPackages_dropPackages (b : Build) (gone others : Location → Package → Bool) :
    (b.dropPackages gone).dropPackages others =
      b.dropPackages fun root p => gone root p || others root p := by
  unfold dropPackages LocationMap.filter
  dsimp only
  rw [Bool.or_assoc, any_or_any_filter_not]
  congr 4
  rw [List.filter_filter]
  refine List.filter_congr fun entry _ => ?_
  rw [Bool.not_or, Bool.and_comm]

theorem removeAll_dropPackages (b : Build) (gone : Location → Package → Bool)
    (ls : List Location) :
    ls.foldl removeUnit (b.dropPackages gone) = (ls.foldl removeUnit b).dropPackages gone := by
  induction ls generalizing b with
  | nil => rfl
  | cons l rest ih => exact ih (b.removeUnit l)

theorem any_takesAway_eq_true_iff {config : WorkspaceConfig} :
    (b.workspace.packages.packages.entries.any fun entry =>
      takesAway config l entry.1 entry.2) = true ↔
      ∃ root p, b.workspace.packages.packages.get? root = some p ∧
        takesAway config l root p = true := by
  rw [List.any_eq_true]
  constructor
  · rintro ⟨⟨root, p⟩, hp, htaken⟩
    exact ⟨root, p, LocationMap.get?_eq_some_iff.mpr hp, htaken⟩
  · rintro ⟨root, p, hp, htaken⟩
    exact ⟨(root, p), LocationMap.get?_eq_some_iff.mp hp, htaken⟩

/-- A deletion removes files and touches packages; nothing else. -/
theorem delete_eq_setPackages (b : Build) (l : Location) :
    b.delete l =
      { (b.filesAt l).foldl removeUnit b with
        workspace := { ((b.filesAt l).foldl removeUnit b).workspace with
          packages := (b.delete l).workspace.packages }
        packagesChanged := (b.delete l).packagesChanged } := by
  rcases b.delete_cases l with heq | ⟨packages, heq⟩
  · rw [heq]
  · rw [heq]
    rfl

/-- What two deletions remove one after the other is what each of them would remove at first. -/
theorem mem_filesAt_delete (b : Build) (l m other : Location) :
    other ∈ b.filesAt l ++ (b.delete l).filesAt m ↔ other ∈ b.filesAt l ++ b.filesAt m := by
  rw [List.mem_append, List.mem_append]
  by_cases hl : other ∈ b.filesAt l
  · exact iff_of_true (.inl hl) (.inl hl)
  · have hunit : other ∈ (b.delete l).workspace.units.keys ↔ other ∈ b.workspace.units.keys := by
      rw [LocationMap.mem_keys_iff, LocationMap.mem_keys_iff, get?_delete, if_neg hl]
    refine or_congr_right ?_
    unfold filesAt UnitStore.locationsWithin
    split
    · exact Iff.rfl
    · rw [List.mem_filter, List.mem_filter, hunit]

namespace Loading

/-- A deletion notes that packages have changed when it takes one away. -/
theorem packagesChanged_delete (h : Loading old b) (l : Location) :
    (b.delete l).packagesChanged = (b.packagesChanged ||
      b.workspace.packages.packages.entries.any fun entry =>
        takesAway old.config l entry.1 entry.2) := by
  rw [Bool.eq_iff_iff, Bool.or_eq_true, any_takesAway_eq_true_iff]
  unfold Build.delete takesAway
  split
  · unfold Build.deleteFile
    dsimp only
    rw [h.wasManifest_eq]
    split
    · -- the file declares the package in its directory
      rename_i hdeclares
      obtain ⟨hmanifest, hany⟩ := Bool.and_eq_true_iff.mp hdeclares
      obtain ⟨p, hp, hown⟩ := (Option.any_eq_true _ _).mp hany
      obtain ⟨root, -, hat⟩ := Option.bind_eq_some_iff.mp hp
      exact iff_of_true rfl (.inr ⟨root, p, hat, Bool.and_eq_true_iff.mpr ⟨hmanifest, hown⟩⟩)
    · -- a package with this manifest would stand in its directory
      rename_i hnot
      refine (or_iff_left ?_).symm
      rintro ⟨root, p, hp, htaken⟩
      obtain ⟨hmanifest, hown⟩ := Bool.and_eq_true_iff.mp htaken
      have hparent := (h.parent_manifest hp).2
      rw [beq_iff_eq.mp hown] at hparent
      have hfound : b.workspace.packages.byManifest? l = some p :=
        Option.bind_eq_some_iff.mpr ⟨root, hparent, hp⟩
      rw [hfound, hmanifest] at hnot
      exact hnot hown
  · have hwithin : b.workspace.packages.within l = [] ↔
        ¬ ∃ root p, b.workspace.packages.packages.get? root = some p ∧
          root.isWithin l = true := by
      rw [List.eq_nil_iff_forall_not_mem]
      refine ⟨fun hnone ⟨root, p, hp, hroot⟩ => hnone p ?_, fun hnone p hp => hnone ?_⟩
      · refine LocationMap.mem_values_iff.mpr ⟨root, ?_⟩
        rw [LocationMap.get?_filter, hp]
        exact if_pos hroot
      · obtain ⟨root, hget⟩ := LocationMap.mem_values_iff.mp hp
        rw [LocationMap.get?_filter, Option.filter_eq_some_iff] at hget
        exact ⟨root, p, hget⟩
    unfold Build.deleteDirectory
    dsimp only
    split
    · rename_i hempty
      rw [(frame_removeAll b _).2.2]
      exact (or_iff_left (hwithin.mp (List.isEmpty_iff.mp hempty))).symm
    · rename_i hempty
      rw [List.isEmpty_iff, hwithin, not_not] at hempty
      exact iff_of_true rfl (.inr hempty)

/-- A deletion removes files and takes packages away, each for a reason of its own. -/
theorem delete_eq (h : Loading old b) (l : Location) :
    b.delete l =
      ((b.filesAt l).foldl Build.removeUnit b).dropPackages (takesAway old.config l) := by
  have hpackages : (b.delete l).workspace.packages =
      ⟨b.workspace.packages.packages.filter fun root p => !takesAway old.config l root p⟩ := by
    refine PackageGraph.ext_get? fun root => Option.ext fun p => ?_
    rw [h.package_delete_iff, LocationMap.get?_filter, Option.filter_eq_some_iff]
    refine and_congr_right fun _ => ?_
    unfold takesAway
    cases l.extension with
    | none => simp
    | some extension => simp [Classical.or_iff_not_imp_left]
  obtain ⟨hsame, -, hchanged⟩ := frame_removeAll b (b.filesAt l)
  rw [delete_eq_setPackages, hpackages, h.packagesChanged_delete]
  unfold dropPackages
  rw [hsame, hchanged]

/-! ## Several deletions -/

/-- Two deletions are the removal of all their files and packages. -/
theorem delete_delete_eq (h : Loading old b) (l m : Location) :
    SameUpToOrder ((b.delete l).delete m)
      (((b.filesAt l ++ b.filesAt m).foldl Build.removeUnit b).dropPackages fun root p =>
        takesAway old.config l root p || takesAway old.config m root p) := by
  rw [(h.delete l).delete_eq, h.delete_eq l, removeAll_dropPackages, dropPackages_dropPackages,
    ← List.foldl_append, ← h.delete_eq]
  exact (b.removeAll_of_mem_iff (b.mem_filesAt_delete l m)).dropPackages _

end Loading

/-- Deletions may be made in any order and more than once. -/
theorem unordered_delete (old : Workspace) : Unordered (Loading old) delete where
  keep := fun l hb => hb.delete l
  congr := by
    intro b c l h
    unfold delete
    split
    · have hremoved := unordered_removeUnit.congr l h
      have hkind : c.wasManifest l = b.wasManifest l := by
        unfold wasManifest
        rw [h.workspace_eq]
      unfold deleteFile
      rw [hkind, h.workspace_eq]
      dsimp only
      split
      · exact hremoved.setPackages _
      · exact hremoved
    · have hremoved := h.foldl unordered_removeUnit.congr (b.workspace.units.locationsWithin l)
      unfold deleteDirectory
      rw [h.workspace_eq]
      dsimp only
      split
      · exact hremoved
      · exact hremoved.setPackages _
  comm := by
    intro b l m hb
    have hlm := hb.delete_delete_eq l m
    have hml := hb.delete_delete_eq m l
    have hgone : (fun root p => takesAway old.config l root p || takesAway old.config m root p) =
        fun root p => takesAway old.config m root p || takesAway old.config l root p :=
      funext fun root => funext fun p => Bool.or_comm _ _
    have hfiles : SameUpToOrder ((b.filesAt l ++ b.filesAt m).foldl removeUnit b)
        ((b.filesAt m ++ b.filesAt l).foldl removeUnit b) := by
      refine b.removeAll_of_mem_iff fun other => ?_
      rw [List.mem_append, List.mem_append, or_comm]
    -- both ways come down to the same files and the same packages
    rw [hgone] at hlm
    exact (hlm.trans (hfiles.dropPackages _)).trans hml.symm
  again := by
    intro b l hb
    have hll := hb.delete_delete_eq l l
    have hgone : (fun root p => takesAway old.config l root p || takesAway old.config l root p) =
        takesAway old.config l := funext fun root => funext fun p => Bool.or_self _
    have hfiles : SameUpToOrder ((b.filesAt l ++ b.filesAt l).foldl removeUnit b)
        ((b.filesAt l).foldl removeUnit b) := by
      refine b.removeAll_of_mem_iff fun other => ?_
      rw [List.mem_append, or_self]
    rw [hgone] at hll
    rw [hb.delete_eq] at hll ⊢
    exact hll.trans (hfiles.dropPackages _)

end Build
end ModelWorkspace
