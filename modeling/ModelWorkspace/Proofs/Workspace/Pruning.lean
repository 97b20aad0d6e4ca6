import ModelWorkspace.Proofs.Workspace.Report

/-!
# What deletion leaves

Deleting locations takes units and packages away and adds none.  A unit that is gone was
erased: it is a deleted file, or lies below a location that is taken for a directory.  A
package that is gone was covered by a deleted location, and of a deleted file neither the
unit nor the package that it declared is left.
-/

namespace ModelWorkspace

/-- Deleting some locations takes the unit of a file away: the file is one of them, or lies
below one of them that has no extension. -/
def Erased (ls : List Location) (f : Location) : Prop :=
  ∃ l ∈ ls, f = l ∨ l.extension = none ∧ f.isBelow l = true

theorem Erased.mono {ls others : List Location} {f : Location} (h : Erased ls f)
    (hsub : ls ⊆ others) : Erased others f := by
  obtain ⟨l, hl, hwhy⟩ := h
  exact ⟨l, hsub hl, hwhy⟩

theorem Erased.covered {ls : List Location} {f : Location} (h : Erased ls f) :
    Covered ls f := by
  obtain ⟨l, hl, rfl | ⟨-, hbelow⟩⟩ := h
  · exact covered_of_mem hl
  · exact ⟨l, hl, Bool.or_eq_true_iff.mpr (Or.inr hbelow)⟩

/-- Nothing is open in an editor, and no parse is or was to be called off. -/
structure Workspace.Quiet (ws : Workspace) : Prop where
  buffers : ∀ l, ws.buffers.get? l = none
  cancelRequests : ∀ l, ws.cancelRequests.get? l = none
  pending : ∀ l, ws.pending.get? l = none

theorem Workspace.Quiet.removeUnit {b : Build} (h : b.workspace.Quiet) (l : Location) :
    (b.removeUnit l).workspace.Quiet where
  buffers := by
    intro other
    refine (LocationMap.get?_erase _ l other).trans ?_
    rw [h.buffers]
    exact ite_self none
  cancelRequests := h.cancelRequests
  pending := by
    intro other
    refine (LocationMap.get?_erase _ l other).trans ?_
    rw [h.pending]
    exact ite_self none

theorem Workspace.Quiet.removeAll {b : Build} (h : b.workspace.Quiet) (ls : List Location) :
    (ls.foldl Build.removeUnit b).workspace.Quiet :=
  Build.removeAll_induction (Q := fun b => b.workspace.Quiet) (fun _ l hb => hb.removeUnit l) h ls

namespace Build

variable {old : Workspace} {b : Build}

/-! ## Deleting one location -/

namespace Loading

/-- Units and settings agree on what is a manifest. -/
theorem wasManifest_eq (h : Loading old b) (l : Location) :
    b.wasManifest l = old.config.isManifest l := by
  unfold wasManifest
  cases hu : b.workspace.units.get? l with
  | none =>
      dsimp only
      rw [h.config_eq]
  | some u =>
      dsimp only
      rw [SourceUnit.isManifest_eq_not_isModel, (h.wellFormed l u hu).isModel_eq, Bool.not_not]

/-- A package stands in the directory of its manifest. -/
theorem parent_manifest (h : Loading old b) {root : Location} {p : Package}
    (hp : b.workspace.packages.packages.get? root = some p) :
    p.root = root ∧ p.manifest.parent = some root := by
  obtain ⟨hroot, text, manifest, htext, hpackage⟩ := h.declared root p hp
  obtain ⟨-, -, hparent⟩ := Package.isDeclared_of_ofManifest htext hpackage
  exact ⟨hroot, hroot ▸ hparent⟩

/-- Deleting a file takes away the package that it declares, and no other. -/
theorem packages_deleteFile (h : Loading old b) {l root : Location} {p : Package} :
    (b.deleteFile l).workspace.packages.packages.get? root = some p ↔
      b.workspace.packages.packages.get? root = some p ∧
        ¬ (old.config.isManifest l = true ∧ p.manifest = l) := by
  unfold Build.deleteFile
  dsimp only
  rw [h.wasManifest_eq]
  split
  · -- the file is the manifest of the package in its directory
    rename_i hdeclares
    obtain ⟨hmanifest, hany⟩ := Bool.and_eq_true_iff.mp hdeclares
    obtain ⟨q, hq, hown⟩ := (Option.any_eq_true _ _).mp hany
    obtain ⟨r, hr, hat⟩ := Option.bind_eq_some_iff.mp hq
    have hown : q.manifest = l := beq_iff_eq.mp hown
    have hremoved : b.workspace.packages.removeManifest l =
        ⟨b.workspace.packages.packages.erase r⟩ := by
      unfold PackageGraph.removeManifest
      rw [hr]
    show (b.workspace.packages.removeManifest l).packages.get? root = some p ↔ _
    rw [hremoved, LocationMap.get?_erase]
    split
    · rename_i hroot
      subst hroot
      refine ⟨fun hnone => (nomatch hnone), fun ⟨hp, hnot⟩ => ?_⟩
      change b.workspace.packages.packages.get? root = some q at hat
      rw [hp] at hat
      cases hat
      exact absurd ⟨hmanifest, hown⟩ hnot
    · rename_i hroot
      refine ⟨fun hp => ⟨hp, fun ⟨_, heq⟩ => hroot ?_⟩, fun hboth => hboth.1⟩
      have hparent := (h.parent_manifest hp).2
      rw [heq, hr] at hparent
      exact (Option.some.inj hparent).symm
  · -- no package stays behind whose manifest is the file
    rename_i hdeclares
    refine ⟨fun hp => ⟨hp, fun ⟨hmanifest, heq⟩ => hdeclares ?_⟩, fun hboth => hboth.1⟩
    rw [hmanifest, Bool.true_and, Option.any_eq_true]
    refine ⟨p, ?_, beq_iff_eq.mpr heq⟩
    unfold PackageGraph.byManifest?
    rw [← heq, (h.parent_manifest hp).2]
    exact hp

/-- Deleting a directory takes away the packages whose roots lie in it. -/
theorem packages_deleteDirectory (b : Build) {l root : Location} {p : Package} :
    (b.deleteDirectory l).workspace.packages.packages.get? root = some p ↔
      b.workspace.packages.packages.get? root = some p ∧ root.isWithin l = false := by
  have hfilter : ∀ {q}, (b.workspace.packages.packages.filter
      fun root _ => root.isWithin l).get? root = some q ↔
      b.workspace.packages.packages.get? root = some q ∧ root.isWithin l = true := by
    intro q
    rw [LocationMap.get?_filter, Option.filter_eq_some_iff]
  unfold Build.deleteDirectory
  dsimp only
  split
  · rename_i hempty
    rw [(frame_removeAll b _).1]
    refine ⟨fun hp => ⟨hp, Bool.eq_false_of_not_eq_true fun hwithin => ?_⟩,
      fun hboth => hboth.1⟩
    have hmem : p ∈ b.workspace.packages.within l :=
      LocationMap.mem_values_iff.mpr ⟨root, hfilter.mpr ⟨hp, hwithin⟩⟩
    rw [List.isEmpty_iff.mp hempty] at hmem
    exact absurd hmem List.not_mem_nil
  · show (b.workspace.packages.packages.filter
      fun root _ => !root.isWithin l).get? root = some p ↔ _
    rw [LocationMap.get?_filter, Option.filter_eq_some_iff]
    simp

end Loading

theorem quiet_delete (h : b.workspace.Quiet) (l : Location) : (b.delete l).workspace.Quiet := by
  refine delete_induction (Q := fun b => b.workspace.Quiet) (fun b l hb => hb.removeUnit l) ?_ h l
  exact fun b packages hb => ⟨hb.buffers, hb.cancelRequests, hb.pending⟩

/-! ## What one deletion takes away -/

/-- What is removed with a location is erased. -/
theorem erased_of_mem_filesAt {l other : Location} (h : other ∈ b.filesAt l) :
    Erased [l] other := by
  refine ⟨l, List.mem_singleton_self l, ?_⟩
  cases hextension : l.extension with
  | some extension =>
      rw [filesAt_of_file (by rw [hextension]; rfl)] at h
      exact Or.inl (List.mem_singleton.mp h)
  | none =>
      rw [filesAt_of_directory hextension] at h
      have hwithin := (List.mem_filter.mp h).2
      exact (Location.isWithin_iff_eq_or_isBelow.mp hwithin).imp_right fun hbelow => ⟨rfl, hbelow⟩

/-- A tracked file is removed with its own location, or with a directory that it lies in. -/
theorem mem_filesAt_iff {l other : Location} {u : SourceUnit}
    (hu : b.workspace.units.get? other = some u) :
    other ∈ b.filesAt l ↔ other = l ∨ l.extension = none ∧ other.isWithin l = true := by
  cases hextension : l.extension with
  | some extension =>
      rw [filesAt_of_file (by rw [hextension]; rfl), List.mem_singleton]
      exact (or_iff_left fun h => nomatch h.1).symm
  | none =>
      have hkey := LocationMap.mem_keys_iff.mpr ⟨u, hu⟩
      rw [filesAt_of_directory hextension, UnitStore.locationsWithin, List.mem_filter]
      constructor
      · exact fun h => Or.inr ⟨rfl, h.2⟩
      · rintro (rfl | ⟨-, hwithin⟩)
        · exact ⟨hkey, other.isWithin_refl⟩
        · exact ⟨hkey, hwithin⟩

theorem unit_of_delete {l other : Location} {u : SourceUnit}
    (hu : (b.delete l).workspace.units.get? other = some u) :
    b.workspace.units.get? other = some u := by
  rw [get?_delete] at hu
  split at hu
  · cases hu
  · exact hu

/-- A unit that a deletion leaves is at no deleted file and in no deleted directory. -/
theorem unit_delete_iff (b : Build) (l : Location) {other : Location} {u : SourceUnit} :
    (b.delete l).workspace.units.get? other = some u ↔
      b.workspace.units.get? other = some u ∧ other ≠ l ∧
        (l.extension = none → other.isWithin l = false) := by
  have hleft : b.workspace.units.get? other = some u →
      (other ∉ b.filesAt l ↔ other ≠ l ∧ (l.extension = none → other.isWithin l = false)) := by
    intro hu
    rw [mem_filesAt_iff hu, not_or, not_and, Bool.not_eq_true]
  rw [get?_delete]
  split
  · rename_i hmem
    exact ⟨fun hnone => (nomatch hnone), fun ⟨hu, hnot⟩ => absurd hmem ((hleft hu).mpr hnot)⟩
  · rename_i hnot
    exact ⟨fun hu => ⟨hu, (hleft hu).mp hnot⟩, And.left⟩

/-- A unit that a deletion takes away is erased. -/
theorem unit_delete_or_erased (l : Location) {other : Location} {u : SourceUnit}
    (hu : b.workspace.units.get? other = some u) :
    (b.delete l).workspace.units.get? other = some u ∨ Erased [l] other := by
  rw [get?_delete]
  split
  · rename_i hmem
    exact Or.inr (erased_of_mem_filesAt hmem)
  · exact Or.inl hu

/-- A package that a deletion leaves was there, and its manifest is not deleted as a file,
nor its root as part of a directory. -/
theorem Loading.package_delete_iff (h : Loading old b) (l : Location) {root : Location}
    {p : Package} :
    (b.delete l).workspace.packages.packages.get? root = some p ↔
      b.workspace.packages.packages.get? root = some p ∧
        (l.extension.isSome = true → ¬ (old.config.isManifest l = true ∧ p.manifest = l)) ∧
        (l.extension = none → root.isWithin l = false) := by
  unfold Build.delete
  split
  · rename_i hextension
    have hsome : l.extension ≠ none := Option.isSome_iff_ne_none.mp hextension
    rw [h.packages_deleteFile]
    simp [hextension, hsome]
  · rename_i hextension
    have hnone := Option.not_isSome_iff_eq_none.mp hextension
    rw [packages_deleteDirectory]
    simp [hnone]

theorem Loading.package_of_delete (h : Loading old b) {l root : Location} {p : Package}
    (hp : (b.delete l).workspace.packages.packages.get? root = some p) :
    b.workspace.packages.packages.get? root = some p :=
  ((h.package_delete_iff l).mp hp).1

/-- A package that a deletion takes away has its manifest at the location or below it. -/
theorem Loading.package_delete_or_within (h : Loading old b) (l : Location) {root : Location}
    {p : Package} (hp : b.workspace.packages.packages.get? root = some p) :
    (b.delete l).workspace.packages.packages.get? root = some p ∨
      p.manifest.isWithin l = true := by
  cases hwithin : p.manifest.isWithin l with
  | true => exact Or.inr rfl
  | false =>
      refine Or.inl ((h.package_delete_iff l).mpr ⟨hp, fun _ hown => ?_, fun _ => ?_⟩)
      · rw [hown.2, Location.isWithin_refl] at hwithin
        cases hwithin
      · -- the manifest stands in the root of its package
        refine Bool.eq_false_of_not_eq_true fun hroot => ?_
        have hparent := (h.parent_manifest hp).2
        rw [Location.isWithin_of_isBelow (Location.isBelow_of_parent hparent) hroot] at hwithin
        cases hwithin

/-! ## Deleting several locations -/

/-- What is left of a workspace behind the deletion of some locations. -/
structure Pruned (old : Workspace) (gone : List Location) (b : Build) : Prop where
  loading : Loading old b
  quiet : b.workspace.Quiet
  package_of_left : ∀ root p, b.workspace.packages.packages.get? root = some p →
    old.packages.packages.get? root = some p
  package_left : ∀ root p, old.packages.packages.get? root = some p →
    b.workspace.packages.packages.get? root = some p ∨ Covered gone p.manifest
  package_gone : ∀ m ∈ gone, m.extension.isSome = true → old.config.isManifest m = true →
    ∀ root p, b.workspace.packages.packages.get? root = some p → p.manifest ≠ m
  unit_of_left : ∀ l u, b.workspace.units.get? l = some u → old.units.get? l = some u
  unit_left : ∀ l u, old.units.get? l = some u →
    b.workspace.units.get? l = some u ∨ Erased gone l
  unit_gone : ∀ l ∈ gone, l.extension.isSome = true → b.workspace.units.get? l = none

namespace Pruned

variable {gone : List Location}

theorem start (h : old.Settled) (hquiet : old.Quiet) : Pruned old [] { workspace := old } where
  loading := Loading.start h
  quiet := hquiet
  package_of_left := fun _ _ hp => hp
  package_left := fun _ _ hp => Or.inl hp
  package_gone := fun _ hm => absurd hm List.not_mem_nil
  unit_of_left := fun _ _ hu => hu
  unit_left := fun _ _ hu => Or.inl hu
  unit_gone := fun _ hl => absurd hl List.not_mem_nil

/-- What one deletion takes away is erased or covered, and a file that is deleted is
gone. -/
theorem delete (h : Pruned old gone b) (l : Location) :
    Pruned old (gone ++ [l]) (b.delete l) := by
  have hbefore : gone ⊆ gone ++ [l] := List.subset_append_left gone [l]
  exact
    { loading := h.loading.delete l
      quiet := quiet_delete h.quiet l
      package_of_left := fun root p hp => h.package_of_left root p (h.loading.package_of_delete hp)
      package_left := by
        intro root p hp
        rcases h.package_left root p hp with hleft | hcovered
        · exact (h.loading.package_delete_or_within l hleft).imp_right fun hwithin =>
            ⟨l, List.mem_append_right _ (List.mem_singleton_self l), hwithin⟩
        · exact Or.inr (hcovered.mono hbefore)
      package_gone := by
        intro m hm hextension hmanifest root p hp
        rcases List.mem_append.mp hm with hm | hm
        · exact h.package_gone m hm hextension hmanifest root p (h.loading.package_of_delete hp)
        · -- a location with an extension is deleted as a file
          rw [List.mem_singleton.mp hm] at hextension hmanifest ⊢
          have hleft := ((h.loading.package_delete_iff l).mp hp).2.1
          exact fun heq => hleft hextension ⟨hmanifest, heq⟩
      unit_of_left := fun other u hu => h.unit_of_left other u (unit_of_delete hu)
      unit_left := by
        intro other u hu
        rcases h.unit_left other u hu with hleft | herased
        · exact (unit_delete_or_erased l hleft).imp_right fun hnew =>
            hnew.mono (List.subset_append_right gone [l])
        · exact Or.inr (herased.mono hbefore)
      unit_gone := by
        intro f hf hextension
        rcases List.mem_append.mp hf with hf | hf
        · have hnone := h.unit_gone f hf hextension
          cases hu : (b.delete l).workspace.units.get? f with
          | none => rfl
          | some u =>
              rw [unit_of_delete hu] at hnone
              cases hnone
        · rw [List.mem_singleton.mp hf] at hextension ⊢
          rw [get?_delete, filesAt_of_file hextension, if_pos (List.mem_singleton_self l)] }

theorem deleteAll (h : Pruned old gone b) (ls : List Location) :
    Pruned old (gone ++ ls) (ls.foldl Build.delete b) := by
  induction ls generalizing gone b with
  | nil =>
      rw [List.append_nil]
      exact h
  | cons l rest ih =>
      have hrest := ih (h.delete l)
      rw [List.append_assoc] at hrest
      rw [List.foldl_cons]
      exact hrest

end Pruned
end Build
end ModelWorkspace
