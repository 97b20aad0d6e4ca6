import ModelWorkspace.Proofs.Workspace.Registered

/-!
# One file in a build

Most of what a build does at one location leaves all others alone.  So what becomes of a file
is followed through a build by looking at its location only: whatever is said of it is kept by
all steps elsewhere, and of the steps at the location itself there are few, its removal, the
loading of a manifest and the loading of a model file.
-/

namespace ModelWorkspace
namespace SourceUnit

/-- Units that differ at most in their links, diagnostics and states. -/
def SameContent (u v : SourceUnit) : Prop :=
  ∃ links diagnostics state,
    v = { u with links := links, diagnostics := diagnostics, state := state }

namespace SameContent

variable {u v w : SourceUnit}

theorem refl (u : SourceUnit) : SameContent u u := ⟨u.links, u.diagnostics, u.state, rfl⟩

theorem trans (h : SameContent u v) (h' : SameContent v w) : SameContent u w := by
  obtain ⟨_, _, _, rfl⟩ := h
  obtain ⟨links, diagnostics, state, rfl⟩ := h'
  exact ⟨links, diagnostics, state, rfl⟩

theorem symm (h : SameContent u v) : SameContent v u := by
  obtain ⟨_, _, _, rfl⟩ := h
  exact ⟨u.links, u.diagnostics, u.state, rfl⟩

theorem sameSource (h : SameContent u v) : SameSource u v := by
  obtain ⟨_, _, _, rfl⟩ := h
  exact ⟨rfl, rfl, rfl, rfl⟩

theorem text_eq (h : SameContent u v) : v.text = u.text := h.sameSource.text_eq

end SameContent

end SourceUnit

namespace Build

open SourceUnit

variable {l other : Location} {b c d : Build} {disk : Disk}

/-- Two builds know the same of a location, apart from how far its unit has come. -/
structure AgreeAt (l : Location) (b c : Build) : Prop where
  unit : ∃ f : SourceUnit → SourceUnit, (∀ u, SameContent u (f u)) ∧
    c.workspace.units.get? l = (b.workspace.units.get? l).map f
  buffer : c.workspace.buffers.get? l = b.workspace.buffers.get? l
  request : c.workspace.cancelRequests.get? l = b.workspace.cancelRequests.get? l
  pending : c.workspace.pending.get? l = b.workspace.pending.get? l
  touched : l ∈ c.touched.toList ↔ l ∈ b.touched.toList
  parsed : l ∈ c.report.parsed ↔ l ∈ b.report.parsed
  cancelled : l ∈ c.report.cancelled ↔ l ∈ b.report.cancelled
  deleted : l ∈ c.report.deleted ↔ l ∈ b.report.deleted

namespace AgreeAt

/-- The unit is the very same in both builds. -/
theorem of_unit_eq (hunit : c.workspace.units.get? l = b.workspace.units.get? l)
    (hbuffer : c.workspace.buffers.get? l = b.workspace.buffers.get? l)
    (hrequest : c.workspace.cancelRequests.get? l = b.workspace.cancelRequests.get? l)
    (hpending : c.workspace.pending.get? l = b.workspace.pending.get? l)
    (htouched : l ∈ c.touched.toList ↔ l ∈ b.touched.toList)
    (hparsed : l ∈ c.report.parsed ↔ l ∈ b.report.parsed)
    (hcancelled : l ∈ c.report.cancelled ↔ l ∈ b.report.cancelled)
    (hdeleted : l ∈ c.report.deleted ↔ l ∈ b.report.deleted) : AgreeAt l b c :=
  ⟨⟨id, SameContent.refl, by rw [hunit, Option.map_id]; rfl⟩, hbuffer, hrequest, hpending,
    htouched, hparsed, hcancelled, hdeleted⟩

theorem refl (l : Location) (b : Build) : AgreeAt l b b :=
  of_unit_eq rfl rfl rfl rfl .rfl .rfl .rfl .rfl

theorem trans (h : AgreeAt l b c) (h' : AgreeAt l c d) : AgreeAt l b d := by
  obtain ⟨f, hf, hunit⟩ := h.unit
  obtain ⟨g, hg, hunit'⟩ := h'.unit
  refine ⟨⟨g ∘ f, fun u => (hf u).trans (hg (f u)), ?_⟩, h'.buffer.trans h.buffer,
    h'.request.trans h.request, h'.pending.trans h.pending, h'.touched.trans h.touched,
    h'.parsed.trans h.parsed, h'.cancelled.trans h.cancelled, h'.deleted.trans h.deleted⟩
  rw [hunit', hunit, Option.map_map]

theorem unit_eq_none_iff (h : AgreeAt l b c) :
    c.workspace.units.get? l = none ↔ b.workspace.units.get? l = none := by
  obtain ⟨f, -, hunit⟩ := h.unit
  rw [hunit, Option.map_eq_none_iff]

/-- What stands at the location in the one build stands there in the other. -/
theorem exists_unit (h : AgreeAt l b c) {u : SourceUnit}
    (hu : b.workspace.units.get? l = some u) :
    ∃ v, c.workspace.units.get? l = some v ∧ SameContent u v := by
  obtain ⟨f, hf, hunit⟩ := h.unit
  exact ⟨f u, by rw [hunit, hu]; rfl, hf u⟩

theorem exists_unit_of (h : AgreeAt l b c) {v : SourceUnit}
    (hv : c.workspace.units.get? l = some v) :
    ∃ u, b.workspace.units.get? l = some u ∧ SameContent u v := by
  obtain ⟨f, hf, hunit⟩ := h.unit
  rw [hunit] at hv
  obtain ⟨u, hu, rfl⟩ := Option.map_eq_some_iff.mp hv
  exact ⟨u, hu, hf u⟩

theorem found_eq (h : AgreeAt l b c) (disk : Disk) :
    c.workspace.found disk l = b.workspace.found disk l :=
  Workspace.found_congr h.buffer disk

theorem contains_eq (h : AgreeAt l b c) :
    c.workspace.cancelRequests.contains l = b.workspace.cancelRequests.contains l := by
  rw [LocationMap.contains_eq_isSome, LocationMap.contains_eq_isSome, h.request]

end AgreeAt

/-! ## Removals -/

theorem mem_deleted_removeUnit (b : Build) (l other : Location) :
    other ∈ (b.removeUnit l).report.deleted ↔
      other ∈ b.report.deleted ∨ other = l ∧ (b.workspace.units.get? l).isSome = true := by
  rw [← LocationMap.contains_eq_isSome]
  unfold removeUnit
  dsimp only
  split
  · rename_i hcontains
    simp [hcontains]
  · rename_i hcontains
    simp [hcontains]

theorem report_removeUnit (b : Build) (l : Location) :
    (b.removeUnit l).report.parsed = b.report.parsed ∧
      (b.removeUnit l).report.cancelled = b.report.cancelled := by
  unfold removeUnit
  dsimp only
  split <;> exact ⟨rfl, rfl⟩

/-- Behind its removal nothing is known of a file. -/
theorem get?_removeUnit (b : Build) (l : Location) :
    (b.removeUnit l).workspace.units.get? l = none ∧
      (b.removeUnit l).workspace.buffers.get? l = none ∧
      (b.removeUnit l).workspace.pending.get? l = none :=
  ⟨LocationMap.get?_erase_self _ l, LocationMap.get?_erase_self _ l,
    LocationMap.get?_erase_self _ l⟩

/-- A file that is removed because there is nothing to read cannot be read behind that. -/
theorem found_removeUnit (h : b.workspace.found disk l = .missing) :
    (b.removeUnit l).workspace.found disk l = .missing :=
  Workspace.found_eq_missing_iff.mpr
    ⟨(get?_removeUnit b l).2.1, (Workspace.found_eq_missing_iff.mp h).2⟩

theorem agreeAt_removeUnit (b : Build) (h : other ≠ l) : AgreeAt other b (b.removeUnit l) := by
  obtain ⟨hparsed, hcancelled⟩ := report_removeUnit b l
  refine .of_unit_eq (LocationMap.get?_erase_of_ne _ h) (LocationMap.get?_erase_of_ne _ h) rfl
    (LocationMap.get?_erase_of_ne _ h) ?_ (by rw [hparsed]) (by rw [hcancelled]) ?_
  · exact LocationSet.mem_toList_add.trans (or_iff_right h)
  · exact (mem_deleted_removeUnit b l other).trans (or_iff_left fun hboth => h hboth.1)

theorem agreeAt_removeAll (b : Build) {ls : List Location} (h : l ∉ ls) :
    AgreeAt l b (ls.foldl removeUnit b) := by
  induction ls generalizing b with
  | nil => exact .refl l b
  | cons first rest ih =>
      rw [List.mem_cons, not_or] at h
      exact (agreeAt_removeUnit b h.1).trans (ih _ h.2)

theorem agreeAt_setPackages (b : Build) (packages : PackageGraph) (l : Location) :
    AgreeAt l b (b.setPackages packages) :=
  .of_unit_eq rfl rfl rfl rfl .rfl .rfl .rfl .rfl

/-- Deletions concern what they erase. -/
theorem agreeAt_delete (b : Build) (h : ¬ Erased [l] other) : AgreeAt other b (b.delete l) := by
  have hremoved : AgreeAt other b ((b.filesAt l).foldl removeUnit b) :=
    agreeAt_removeAll b fun hmem => h (erased_of_mem_filesAt hmem)
  rcases b.delete_cases l with heq | ⟨packages, heq⟩
  · rw [heq]
    exact hremoved
  · rw [heq]
    exact hremoved.trans (agreeAt_setPackages _ packages other)

theorem agreeAt_deleteAll (b : Build) {ls : List Location} (h : ¬ Erased ls l) :
    AgreeAt l b (ls.foldl delete b) := by
  induction ls generalizing b with
  | nil => exact .refl l b
  | cons first rest ih =>
      have hfirst : ¬ Erased [first] l := fun herased =>
        h (herased.mono (List.cons_subset.mpr ⟨List.mem_cons_self, List.nil_subset _⟩))
      have hrest : ¬ Erased rest l := fun herased =>
        h (herased.mono (List.subset_cons_self first rest))
      rw [List.foldl_cons]
      exact (agreeAt_delete b hfirst).trans (ih (b.delete first) hrest)

/-! ## Manifests -/

theorem agreeAt_withManifest (b : Build) (text : String) (h : other ≠ l) :
    AgreeAt other b (b.withManifest l text) := by
  refine .of_unit_eq (LocationMap.get?_insert_of_ne _ _ h) rfl rfl rfl .rfl ?_ .rfl .rfl
  exact List.mem_append.trans (or_iff_left fun hmem => h (List.mem_singleton.mp hmem))

theorem agreeAt_declaredPackage (b : Build) (disk : Disk) (l : Location) (m : Option Manifest)
    (other : Location) : AgreeAt other b (b.declaredPackage disk l m).1 :=
  declaredPackage_induction (.refl other b) (fun packages => agreeAt_setPackages b packages other)
    disk l m

/-- What holds behind the loading of all manifests, shown as `loadedManifests_induction_waiting`
says. -/
theorem loadedManifests_invariant {W : Location → Prop}
    {P : Build → LocationSet → List Location → Prop}
    (hmono : ∀ b models waiting more, waiting ⊆ more → P b models waiting → P b models more)
    (hstep : ∀ b models l waiting, W l → P b models (l :: waiting) →
      P (b.loadedManifest disk l).1 (models.addAll (b.newModels disk l)) waiting)
    {models found : LocationSet} {q : ManifestQueue} {last : Build}
    (hq : ∀ l, l ∈ q.waiting ∨ l ∈ q.unseen → W l)
    (hload : loadedManifests disk b models q = (last, found)) (hstart : P b models q.waiting) :
    P last found [] := by
  obtain ⟨last', found', hload', hlast⟩ :=
    loadedManifests_induction_waiting hmono hstep hq hstart
  rw [hload] at hload'
  cases hload'
  exact hlast

/-! ## Model files -/

theorem agreeAt_beginParse (b : Build) (h : other ≠ l) : AgreeAt other b (b.beginParse l).2 :=
  .of_unit_eq rfl rfl (LocationMap.get?_erase_of_ne _ h) rfl .rfl .rfl .rfl .rfl

theorem agreeAt_postpone (b : Build) (h : other ≠ l) : AgreeAt other b (b.postpone l) := by
  refine .of_unit_eq rfl rfl rfl (LocationMap.get?_insert_of_ne _ _ h) .rfl .rfl ?_ .rfl
  exact List.mem_append.trans (or_iff_left fun hmem => h (List.mem_singleton.mp hmem))

theorem agreeAt_storeModel (b : Build) (text : String) (document : Document) (h : other ≠ l) :
    AgreeAt other b (b.storeModel l text document) := by
  refine .of_unit_eq (LocationMap.get?_insert_of_ne _ _ h) rfl rfl rfl ?_ ?_ .rfl .rfl
  · exact LocationSet.mem_toList_add.trans (or_iff_right h)
  · exact List.mem_append.trans (or_iff_left fun hmem => h (List.mem_singleton.mp hmem))

theorem agreeAt_loadedModel (disk : Disk) (b : Build) (h : other ≠ l) :
    AgreeAt other b (loadedModel disk b l) := by
  rcases loadedModel_cases disk b l with ⟨-, heq⟩ | ⟨-, heq⟩ | ⟨text, -, ⟨-, heq⟩ | ⟨-, heq⟩⟩
  · exact heq ▸ agreeAt_removeUnit b h
  · rw [heq]
    exact .refl other b
  · exact heq ▸ (agreeAt_beginParse b h).trans (agreeAt_postpone _ h)
  · exact heq ▸ (agreeAt_beginParse b h).trans (agreeAt_storeModel _ text _ h)

theorem agreeAt_loadedModels (disk : Disk) (b : Build) {ls : List Location} (h : l ∉ ls) :
    AgreeAt l b (ls.foldl (loadedModel disk) b) := by
  induction ls generalizing b with
  | nil => exact .refl l b
  | cons first rest ih =>
      rw [List.mem_cons, not_or] at h
      exact (agreeAt_loadedModel disk b h.1).trans (ih _ h.2)

/-- What becomes of a model file that is to be loaded: `next` is what is known of it behind
that, `b` what was known before. -/
inductive Outcome (disk : Disk) (l : Location) (b next : Build) : Prop
  | missing (missing : b.workspace.found disk l = .missing)
      (agree : AgreeAt l (b.removeUnit l) next)
  | passedOver (unreadable : b.workspace.found disk l = .unreadable) (agree : AgreeAt l b next)
  | putOff (text : String) (readable : b.workspace.found disk l = .text text)
      (called : b.workspace.cancelRequests.contains l = true)
      (agree : AgreeAt l ((b.beginParse l).2.postpone l) next)
  | stored (text : String) (readable : b.workspace.found disk l = .text text)
      (uncalled : b.workspace.cancelRequests.contains l = false)
      (agree : AgreeAt l ((b.beginParse l).2.storeModel l text (Document.ofText text)) next)

theorem outcome_loadedModel (disk : Disk) (b : Build) (l : Location) :
    Outcome disk l b (loadedModel disk b l) := by
  rcases loadedModel_cases disk b l with ⟨hread, heq⟩ | ⟨hread, heq⟩ |
    ⟨text, hread, ⟨hcalled, heq⟩ | ⟨hcalled, heq⟩⟩
  · exact .missing hread (heq ▸ .refl l _)
  · refine .passedOver hread ?_
    rw [heq]
    exact .refl l b
  · exact .putOff text hread hcalled (heq ▸ .refl l _)
  · exact .stored text hread hcalled (heq ▸ .refl l _)

namespace Outcome

variable {next : Build}

theorem agreeAt_of_unreadable (h : Outcome disk l b next)
    (hunreadable : b.workspace.found disk l = .unreadable) : AgreeAt l b next := by
  cases h with
  | missing hread => cases hunreadable.symm.trans hread
  | passedOver hread hagree => exact hagree
  | putOff text hread => cases hunreadable.symm.trans hread
  | stored text hread => cases hunreadable.symm.trans hread

/-- Steps elsewhere, in front and behind, do not matter. -/
theorem congr (h : Outcome disk l c next) (hfront : AgreeAt l b c) (hbehind : AgreeAt l next d) :
    Outcome disk l b d := by
  have hadd : ∀ {s t : LocationSet}, (l ∈ (s.add l).toList ↔ l ∈ (t.add l).toList) := by
    intro s t
    rw [LocationSet.mem_toList_add, LocationSet.mem_toList_add]
    exact iff_of_true (.inl rfl) (.inl rfl)
  have hlast : ∀ {ls others : List Location}, (l ∈ ls ++ [l] ↔ l ∈ others ++ [l]) := by
    intro ls others
    exact iff_of_true List.mem_concat_self List.mem_concat_self
  have hput : ∀ {α : Type} {m n : LocationMap α} {value : α},
      (n.insert l value).get? l = (m.insert l value).get? l := by
    intro α m n value
    rw [LocationMap.get?_insert_self, LocationMap.get?_insert_self]
  have hgone : ∀ {α : Type} {m n : LocationMap α}, (n.erase l).get? l = (m.erase l).get? l := by
    intro α m n
    rw [LocationMap.get?_erase_self, LocationMap.get?_erase_self]
  cases h with
  | missing hread hagree =>
      refine .missing ((hfront.found_eq disk).symm.trans hread) (.trans (.trans ?_ hagree) hbehind)
      obtain ⟨hparsed, hcancelled⟩ := report_removeUnit b l
      obtain ⟨hparsed', hcancelled'⟩ := report_removeUnit c l
      refine .of_unit_eq hgone hgone hfront.request hgone hadd ?_ ?_ ?_
      · rw [hparsed, hparsed', hfront.parsed]
      · rw [hcancelled, hcancelled', hfront.cancelled]
      · rw [mem_deleted_removeUnit, mem_deleted_removeUnit, hfront.deleted,
          Option.isSome_iff_ne_none, Option.isSome_iff_ne_none, Ne, Ne, hfront.unit_eq_none_iff]
  | passedOver hread hagree =>
      exact .passedOver ((hfront.found_eq disk).symm.trans hread)
        (hfront.trans (hagree.trans hbehind))
  | putOff text hread hcalled hagree =>
      refine .putOff text ((hfront.found_eq disk).symm.trans hread)
        (hfront.contains_eq.symm.trans hcalled) (.trans (.trans ?_ hagree) hbehind)
      exact ⟨hfront.unit, hfront.buffer, hgone, hput, hfront.touched, hfront.parsed, hlast,
        hfront.deleted⟩
  | stored text hread hcalled hagree =>
      refine .stored text ((hfront.found_eq disk).symm.trans hread)
        (hfront.contains_eq.symm.trans hcalled) (.trans (.trans ?_ hagree) hbehind)
      exact .of_unit_eq hput hfront.buffer hgone hfront.pending hadd hlast hfront.cancelled
        hfront.deleted

end Outcome

/-- A model file that is loaded once among others becomes what it becomes alone. -/
theorem outcome_loadedModels (disk : Disk) (b : Build) {ls : List Location} (hnodup : ls.Nodup)
    (hl : l ∈ ls) : Outcome disk l b (ls.foldl (loadedModel disk) b) := by
  induction ls generalizing b with
  | nil => exact absurd hl List.not_mem_nil
  | cons first rest ih =>
      obtain ⟨hnot, hrest⟩ := List.nodup_cons.mp hnodup
      by_cases hfirst : l = first
      · subst hfirst
        exact (outcome_loadedModel disk b l).congr (.refl l b) (agreeAt_loadedModels disk _ hnot)
      · exact (ih (loadedModel disk b first) hrest ((List.mem_cons.mp hl).resolve_left hfirst)).congr
          (agreeAt_loadedModel disk b hfirst) (.refl l _)

/-! ## The stages behind -/

theorem sameContent_resetUnit (u : SourceUnit) : SameContent u (resetUnit u) := by
  unfold resetUnit
  split
  · exact ⟨_, _, _, rfl⟩
  · exact .refl u

theorem sameContent_unitBehind (b : Build) (u : SourceUnit) : SameContent u (b.unitBehind u) := by
  have hindexed : SameContent u (indexedUnit u) := by
    unfold indexedUnit
    split
    · exact ⟨_, _, _, rfl⟩
    · exact .refl u
  refine hindexed.trans ?_
  unfold unitBehind linkedUnit
  split
  · exact ⟨_, _, _, rfl⟩
  · exact .refl _

theorem sameContent_refreshedUnit (problems : List (Location × PackageProblem)) (u : SourceUnit) :
    SameContent u (refreshedUnit problems u) := by
  unfold refreshedUnit
  split
  · exact ⟨_, _, _, rfl⟩
  · exact .refl u

/-- A change of packages sends units back, apart from those that it drops. -/
theorem agreeAt_reset (b : Build) (l : Location) : AgreeAt l b.dropOrphans b.reset :=
  ⟨⟨resetUnit, sameContent_resetUnit, LocationMap.get?_map _ _ _⟩, rfl, rfl, rfl, .rfl, .rfl,
    .rfl, .rfl⟩

/-- Behind the loading of files nothing becomes of a file but in how far it has come. -/
theorem agreeAt_finished (b : Build) (disk : Disk) (models : LocationSet) (l : Location) :
    AgreeAt l (b.loaded disk models) (b.finished disk models) := by
  have hlinked : AgreeAt l (b.loaded disk models) (b.loaded disk models).indexed.linked :=
    ⟨⟨_, sameContent_unitBehind _, get?_linked _ l⟩, rfl, rfl, rfl, .rfl, .rfl, .rfl, .rfl⟩
  unfold finished
  dsimp only
  split
  · exact hlinked.trans ⟨⟨_, sameContent_refreshedUnit _, get?_refreshManifests _ l⟩, rfl, rfl,
      rfl, .rfl, .rfl, .rfl, .rfl⟩
  · exact hlinked

/-- A build in which no file counts as indexed that packages might name otherwise. -/
def behindManifests (b : Build) : Build :=
  if b.packagesChanged then b.reset else b

/-- In the end a location is what loading its model file leads to, if that is asked for and a
package owns it; otherwise it is as it was behind the manifests. -/
theorem outcome_or_agreeAt (b : Build) (disk : Disk) (models : LocationSet) (l : Location) :
    ((l ∈ models.toList ∧
          ((b.finished disk models).workspace.packages.packageFor? l).isSome = true) ∧
        Outcome disk l b.behindManifests (b.finished disk models)) ∨
      (¬ (l ∈ models.toList ∧
          ((b.finished disk models).workspace.packages.packageFor? l).isSome = true) ∧
        AgreeAt l b.behindManifests (b.finished disk models)) := by
  have hfinished := agreeAt_finished b disk models l
  have hpackages : (b.finished disk models).workspace.packages =
      b.behindManifests.workspace.packages :=
    (frame_finished b disk models).2.1.trans (frame_loadedModels disk b.behindManifests _).2.1
  rw [hpackages]
  change AgreeAt l (b.behindManifests.loadedModels disk models) _ at hfinished
  generalize b.behindManifests = c at hfinished ⊢
  by_cases hl : l ∈ models.toList.filter fun l => (c.workspace.packages.packageFor? l).isSome
  · exact .inl ⟨List.mem_filter.mp hl,
      (outcome_loadedModels disk c (models.nodup_keys.filter _) hl).congr (.refl l c) hfinished⟩
  · exact .inr ⟨fun hboth => hl (List.mem_filter.mpr hboth),
      (agreeAt_loadedModels disk c hl).trans hfinished⟩

/-! ## What is said of one location -/

/-- A statement about one location that a removal there keeps. -/
structure IsLocal (l : Location) (Q : Build → Prop) : Prop where
  congr : ∀ {b c}, AgreeAt l b c → Q b → Q c
  removeUnit : ∀ {b}, Q b → Q (b.removeUnit l)

namespace IsLocal

variable {Q : Build → Prop}

theorem removeAt (h : IsLocal l Q) (hb : Q b) (other : Location) : Q (b.removeUnit other) := by
  by_cases hl : l = other
  · exact hl ▸ h.removeUnit hb
  · exact h.congr (agreeAt_removeUnit b hl) hb

theorem removeAll (h : IsLocal l Q) (hb : Q b) (ls : List Location) :
    Q (ls.foldl Build.removeUnit b) :=
  removeAll_induction (Q := Q) (fun _ other hb => h.removeAt hb other) hb ls

theorem delete (h : IsLocal l Q) (hb : Q b) (other : Location) : Q (b.delete other) :=
  delete_induction (Q := Q) (fun _ other hb => h.removeAt hb other)
    (fun b packages hb => h.congr (agreeAt_setPackages b packages l) hb) hb other

theorem deleteAll (h : IsLocal l Q) (hb : Q b) (ls : List Location) :
    Q (ls.foldl Build.delete b) :=
  deleteAll_induction (Q := Q) (fun _ other hb => h.delete hb other) hb ls

/-- A manifest is stored at its own location only. -/
theorem loadedManifest (h : IsLocal l Q) (hb : Q b) (disk : Disk) {other : Location}
    (hown : other = l → ∀ text, b.workspace.found disk l = .text text → Q (b.withManifest l text)) :
    Q (b.loadedManifest disk other).1 := by
  rcases b.loadedManifest_cases disk other with ⟨-, heq⟩ | ⟨-, heq⟩ | ⟨text, htext, heq⟩
  · simp only [heq]
    exact h.delete hb other
  · simp only [heq]
    exact hb
  · rw [heq]
    refine h.congr (agreeAt_declaredPackage (b.withManifest other text) disk other _ l) ?_
    by_cases hl : other = l
    · subst hl
      exact hown rfl text htext
    · exact h.congr (agreeAt_withManifest b text (Ne.symm hl)) hb

/-- What the loading of a manifest at this location keeps is kept by the loading of all. -/
theorem loadedManifests (h : IsLocal l Q) (hb : Q b) {models found : LocationSet}
    {q : ManifestQueue} {last : Build}
    (hload : Build.loadedManifests disk b models q = (last, found))
    (hown : l ∈ q.waiting ∨ l ∈ q.unseen → ∀ c text, c.workspace.found disk l = .text text → Q c →
      Q (c.withManifest l text)) : Q last := by
  refine loadedManifests_invariant (P := fun b _ _ => Q b)
    (W := fun other => other = l → ∀ c text, c.workspace.found disk l = .text text → Q c →
      Q (c.withManifest l text)) (fun _ _ _ _ _ hb => hb) ?_ ?_ hload hb
  · exact fun c _ other _ hother hc => h.loadedManifest hc disk fun heq text htext =>
      hother heq c text htext hc
  · rintro other hother rfl
    exact hown hother

/-- Behind the manifests files may be dropped or sent back. -/
theorem behindManifests (h : IsLocal l Q) (hb : Q b) : Q b.behindManifests := by
  unfold Build.behindManifests
  split
  · exact h.congr (agreeAt_reset b l) (h.removeAll hb _)
  · exact hb

end IsLocal

/-! A file may lack a buffer, a unit or an interrupted parse. -/

theorem isLocal_noBuffer (l : Location) : IsLocal l fun b => b.workspace.buffers.get? l = none where
  congr := fun hagree hb => hagree.buffer.trans hb
  removeUnit := fun _ => (get?_removeUnit _ l).2.1

theorem isLocal_noUnit (l : Location) : IsLocal l fun b => b.workspace.units.get? l = none where
  congr := fun hagree hb => hagree.unit_eq_none_iff.mpr hb
  removeUnit := fun _ => (get?_removeUnit _ l).1

theorem isLocal_notPending (l : Location) :
    IsLocal l fun b => b.workspace.pending.get? l = none where
  congr := fun hagree hb => hagree.pending.trans hb
  removeUnit := fun _ => (get?_removeUnit _ l).2.2

end Build
end ModelWorkspace
