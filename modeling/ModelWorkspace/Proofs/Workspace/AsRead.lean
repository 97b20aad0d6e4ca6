import ModelWorkspace.Proofs.Workspace.Cancellation

/-!
# Files that an update has read

Behind an update the files that it was asked to load are tracked as they can be read: a file
that is missing is not tracked, one with a text is what its text makes it, and one that cannot
be read has been left as it was.  For manifests this
needs that none of them is taken away again by the loading of another one.  A manifest that is
missing and whose name has no extension is deleted like a directory, so no text may lie below it
(`NothingBelowMissing`); then nothing at all is left below it.
-/

namespace ModelWorkspace
namespace SourceUnit

/-- The unit that a text makes of a tracked file, before it is indexed. -/
def ofTracked (config : WorkspaceConfig) (l : Location) (text : String) : SourceUnit :=
  if config.isManifest l then ofManifestText l text
  else ofDocument l text (Document.ofText text)

end SourceUnit

namespace Workspace

variable {ws old : Workspace} {b c : Build} {disk : Disk} {l m : Location}

/-- What is tracked at a location is what can be read there, if that can be told. -/
structure ReadsAt (ws : Workspace) (disk : Disk) (l : Location) : Prop where
  missing : ws.found disk l = .missing → ws.units.get? l = none
  found : ∀ text, ws.found disk l = .text text →
    ∃ u, ws.units.get? l = some u ∧ (SourceUnit.ofTracked ws.config l text).SameContent u

/-- A manifest has been loaded: it is tracked as it can be read, and if it is missing and has
no extension, nothing is left in its place. -/
structure Visited (ws : Workspace) (disk : Disk) (m : Location) : Prop extends
    ws.ReadsAt disk m where
  hollow : m.extension = none → ws.found disk m = .missing → ∀ l, l.isWithin m = true →
    ws.units.get? l = none ∧ ws.packages.packages.get? l = none

/-- Below a manifest that is missing on the disk and has no extension there is no text. -/
def NothingBelowMissing (ws : Workspace) (disk : Disk) : Prop :=
  ∀ m l, ws.config.isManifest m = true → m.extension = none →
    disk.files.get? (disk.canonical m) = none → l.isBelow m = true →
      ∀ text, ws.found disk l ≠ .text text

theorem ReadsAt.of_unreadable (h : ws.found disk l = .unreadable) : ws.ReadsAt disk l where
  missing := fun hmissing => by cases h.symm.trans hmissing
  found := fun _ htext => by cases h.symm.trans htext

theorem ReadsAt.congr (h : b.workspace.ReadsAt disk l)
    (hconfig : c.workspace.config = b.workspace.config) (hagree : Build.AgreeAt l b c) :
    c.workspace.ReadsAt disk l where
  missing := by
    rw [hagree.found_eq, hagree.unit_eq_none_iff]
    exact h.missing
  found := by
    intro text htext
    rw [hagree.found_eq] at htext
    obtain ⟨u, hu, hsame⟩ := h.found text htext
    obtain ⟨v, hv, hcontent⟩ := hagree.exists_unit hu
    rw [hconfig]
    exact ⟨v, hv, hsame.trans hcontent⟩

/-- Files without a text are not open. -/
theorem buffers_of_no_text (h : ∀ text, ws.found disk l ≠ .text text) :
    ws.buffers.get? l = none :=
  Option.eq_none_iff_forall_ne_some.mpr fun text htext => h text (found_of_buffer htext disk)

/-- Files without a text do not get one while buffers are only closed. -/
theorem found_eq_of_closed (hclosed : old.buffers.get? l = none → ws.buffers.get? l = none)
    (h : ∀ text, old.found disk l ≠ .text text) : ws.found disk l = old.found disk l := by
  have hbuffer := buffers_of_no_text h
  exact found_congr ((hclosed hbuffer).trans hbuffer.symm) disk

theorem no_text_of_missing (h : ws.found disk l = .missing) (text : String) :
    ws.found disk l ≠ .text text := by
  rw [h]
  exact Loaded.noConfusion

/-- What has no text below a missing manifest does not get one. -/
theorem NothingBelowMissing.no_text (h : old.NothingBelowMissing disk)
    (hclosed : ∀ l, old.buffers.get? l = none → ws.buffers.get? l = none)
    (hm : old.config.isManifest m = true) (hextension : m.extension = none)
    (hmissing : ws.found disk m = .missing) (hl : l.isBelow m = true) (text : String) :
    ws.found disk l ≠ .text text := by
  have hnone := h m l hm hextension (found_eq_missing_iff.mp hmissing).2 hl
  rw [found_eq_of_closed (hclosed l) hnone]
  exact hnone text

end Workspace

namespace Build

open SourceUnit

variable {old : Workspace} {b c : Build} {disk : Disk} {l m : Location}

/-- Loading a manifest opens no buffer. -/
theorem buffers_loadedManifest (h : b.workspace.buffers.get? l = none) (disk : Disk)
    (m : Location) : (b.loadedManifest disk m).1.workspace.buffers.get? l = none :=
  (isLocal_noBuffer l).loadedManifest h disk fun _ _ _ => h

/-! ## Manifests -/

/-- A manifest that is missing is gone when it has been loaded, and others that have been
loaded before stay as they are. -/
theorem Loading.visited_delete (h : Loading old b) (hnothing : old.NothingBelowMissing disk)
    (hclosed : ∀ l, old.buffers.get? l = none → b.workspace.buffers.get? l = none)
    (hl : old.config.isManifest l = true) (hmissing : b.workspace.found disk l = .missing)
    (hwhy : m = l ∨ b.workspace.Visited disk m) :
    (b.delete l).workspace.Visited disk m := by
  have hconfig : (b.delete l).workspace.config = b.workspace.config :=
    (h.delete l).config_eq.trans h.config_eq.symm
  have hread : ∀ {x}, (∀ text, b.workspace.found disk x ≠ .text text) →
      (b.delete l).workspace.found disk x = b.workspace.found disk x :=
    Workspace.found_eq_of_closed fun hbuffer => buffers_delete hbuffer l
  have hunit : ∀ {x}, b.workspace.units.get? x = none →
      (b.delete l).workspace.units.get? x = none := fun hx => unit_delete_of_none hx l
  have hpackage : ∀ {x}, b.workspace.packages.packages.get? x = none →
      (b.delete l).workspace.packages.packages.get? x = none := by
    intro x hx
    refine Option.eq_none_iff_forall_ne_some.mpr fun p hp => ?_
    rw [((h.package_delete_iff l).mp hp).1] at hx
    cases hx
  by_cases heq : m = l
  · subst heq
    refine ⟨⟨fun _ => ?_, fun text htext => ?_⟩, fun hextension _ x hx => ⟨?_, ?_⟩⟩
    · exact Option.eq_none_iff_forall_ne_some.mpr fun u hu =>
        ((unit_delete_iff b m).mp hu).2.1 rfl
    · rw [hread (Workspace.no_text_of_missing hmissing)] at htext
      cases hmissing.symm.trans htext
    · refine Option.eq_none_iff_forall_ne_some.mpr fun u hu => ?_
      rw [((unit_delete_iff b m).mp hu).2.2 hextension] at hx
      cases hx
    · refine Option.eq_none_iff_forall_ne_some.mpr fun p hp => ?_
      rw [((h.package_delete_iff m).mp hp).2.2 hextension] at hx
      cases hx
  · have hvisited := hwhy.resolve_left heq
    by_cases herased : Erased [l] m
    · -- what lies below a missing manifest has no text
      obtain ⟨other, hother, hm⟩ := herased
      rw [List.mem_singleton.mp hother] at hm
      obtain ⟨hextension, hbelow⟩ := hm.resolve_left heq
      have hnone : ∀ text, b.workspace.found disk m ≠ .text text :=
        hnothing.no_text hclosed hl hextension hmissing hbelow
      have hsame := hread hnone
      refine ⟨⟨fun hgone => ?_, fun text htext => ?_⟩, fun hextension hgone x hx => ?_⟩
      · rw [hsame] at hgone
        exact hunit (hvisited.missing hgone)
      · rw [hsame] at htext
        exact absurd htext (hnone text)
      · rw [hsame] at hgone
        exact (hvisited.hollow hextension hgone x hx).imp hunit hpackage
    · have hagree := agreeAt_delete b herased
      refine ⟨hvisited.toReadsAt.congr hconfig hagree, fun hextension hnone x hx => ?_⟩
      rw [hagree.found_eq] at hnone
      exact (hvisited.hollow hextension hnone x hx).imp hunit hpackage

/-- A manifest with a text is tracked when it has been loaded, and others that have been loaded
before stay as they are. -/
theorem Loading.visited_declaredPackage (h : Loading old b)
    (hnothing : old.NothingBelowMissing disk)
    (hclosed : ∀ l, old.buffers.get? l = none → b.workspace.buffers.get? l = none)
    (hl : old.config.isManifest l = true) (hm : old.config.isManifest m = true) {text : String}
    (htext : b.workspace.found disk l = .text text) (hwhy : m = l ∨ b.workspace.Visited disk m) :
    ((b.withManifest l text).declaredPackage disk l
      (Manifest.ofText text).toOption).1.workspace.Visited disk m := by
  obtain ⟨hconfig, -, hbuffers⟩ :=
    frame_declaredPackage (b.withManifest l text) disk l (Manifest.ofText text).toOption
  have hagree :=
    agreeAt_declaredPackage (b.withManifest l text) disk l (Manifest.ofText text).toOption
  have hget := unit_declaredPackage b disk l text
  have hpackages := packages_declaredPackage (b.withManifest l text) disk l text
  generalize (b.withManifest l text).declaredPackage disk l (Manifest.ofText text).toOption =
    result at hconfig hbuffers hagree hget hpackages ⊢
  have hread : ∀ x, result.1.workspace.found disk x = b.workspace.found disk x :=
    fun _ => Workspace.found_congr (by rw [hbuffers]; rfl) disk
  by_cases heq : m = l
  · subst heq
    refine ⟨⟨fun hnone => ?_, fun found hfound => ?_⟩, fun _ hnone => ?_⟩
    · rw [hread, htext] at hnone
      cases hnone
    · rw [hread, htext] at hfound
      cases hfound
      refine ⟨ofManifestText m text, by rw [hget, if_pos rfl], ?_⟩
      have hkind : result.1.workspace.config.isManifest m = true := by
        rw [hconfig]
        exact h.config_eq ▸ hm
      unfold ofTracked
      rw [if_pos hkind]
      exact .refl _
    · rw [hread, htext] at hnone
      cases hnone
  · have hvisited := hwhy.resolve_left heq
    refine ⟨hvisited.toReadsAt.congr hconfig
      ((agreeAt_withManifest b text heq).trans (hagree m)), fun hextension hnone x hx => ?_⟩
    rw [hread] at hnone
    -- the manifest with the text does not lie below one that is missing
    have hapart : l.isBelow m = false := by
      refine Bool.eq_false_of_not_eq_true fun hbelow => ?_
      exact hnothing.no_text hclosed hm hextension hnone hbelow text htext
    have hwithin : l.isWithin m = false := by
      refine Bool.eq_false_of_not_eq_true fun hwithin => ?_
      rcases Location.isWithin_iff_eq_or_isBelow.mp hwithin with hsame | hbelow
      · exact heq hsame.symm
      · exact Bool.false_ne_true (hapart.symm.trans hbelow)
    have hparent : l.parent ≠ some x := by
      intro hparent
      rw [Location.isWithin_of_isBelow (Location.isBelow_of_parent hparent) hx] at hwithin
      cases hwithin
    obtain ⟨hunit, hpackage⟩ := hvisited.hollow hextension hnone x hx
    constructor
    · rw [hget, if_neg, hunit]
      rintro rfl
      rw [hx] at hwithin
      cases hwithin
    · rw [hpackages, if_neg hparent]
      exact hpackage

theorem Loading.visited_loadedManifest (h : Loading old b)
    (hnothing : old.NothingBelowMissing disk)
    (hclosed : ∀ l, old.buffers.get? l = none → b.workspace.buffers.get? l = none)
    (hl : old.config.isManifest l = true) (hm : old.config.isManifest m = true)
    (hwhy : m = l ∨ b.workspace.Visited disk m) :
    (b.loadedManifest disk l).1.workspace.Visited disk m := by
  rcases b.loadedManifest_cases disk l with ⟨hnone, heq⟩ | ⟨hunreadable, heq⟩ | ⟨text, htext, heq⟩
  · simp only [heq]
    exact h.visited_delete hnothing hclosed hl hnone hwhy
  · simp only [heq]
    rcases hwhy with rfl | hvisited
    · exact ⟨.of_unreadable hunreadable, fun _ hnone => by cases hunreadable.symm.trans hnone⟩
    · exact hvisited
  · rw [heq]
    exact h.visited_declaredPackage hnothing hclosed hl hm htext hwhy

/-! ## Model files -/

/-- Behind the stages that follow the manifests the packages are the same. -/
theorem packages_behindManifests (b : Build) (disk : Disk) (models : LocationSet) :
    (b.finished disk models).workspace.packages = b.workspace.packages := by
  have hbehind : b.behindManifests.workspace.packages = b.workspace.packages := by
    unfold behindManifests
    split
    · exact (frame_removeAll b _).1
    · rfl
  rw [(frame_finished b disk models).2.1, ← hbehind]
  exact (frame_loadedModels disk b.behindManifests _).2.1

/-- Manifests are left alone by the stages that follow them. -/
theorem Loading.agreeAt_of_isManifest (h : Loading old b) {models : LocationSet}
    (hmodels : ∀ l ∈ models.toList, old.config.isManifest l = false)
    (hm : old.config.isManifest m = true) : AgreeAt m b (b.finished disk models) := by
  have hbehind : AgreeAt m b b.behindManifests := by
    unfold behindManifests
    split
    · refine (agreeAt_removeAll b fun hmem => ?_).trans (agreeAt_reset b m)
      rw [h.isManifest_of_mem_models hmem] at hm
      cases hm
    · exact .refl m b
  rcases outcome_or_agreeAt b disk models m with ⟨⟨hmem, -⟩, -⟩ | ⟨-, hagree⟩
  · rw [hmodels m hmem] at hm
    cases hm
  · exact hbehind.trans hagree

/-- A model file whose parse was not called off is tracked as it can be read, and if there is
something to read, no request to call it off is left. -/
theorem Outcome.readsAt (h : Outcome disk l b c)
    (hconfig : c.workspace.config.isManifest l = false) (hnot : l ∉ c.report.cancelled) :
    c.workspace.ReadsAt disk l ∧
      (∀ text, c.workspace.found disk l = .text text →
        c.workspace.cancelRequests.contains l = false ∧ l ∈ c.touched.toList) := by
  cases h with
  | missing hread hagree =>
      have hnone : c.workspace.found disk l = .missing :=
        (hagree.found_eq disk).trans (found_removeUnit hread)
      refine ⟨⟨fun _ => hagree.unit_eq_none_iff.mpr (get?_removeUnit b l).1,
        fun text hsome => ?_⟩, fun text hsome => ?_⟩
      · rw [hnone] at hsome
        cases hsome
      · rw [hnone] at hsome
        cases hsome
  | passedOver hread hagree =>
      have hagain : c.workspace.found disk l = .unreadable := (hagree.found_eq disk).trans hread
      exact ⟨.of_unreadable hagain, fun text hsome => by cases hagain.symm.trans hsome⟩
  | putOff text hread hcalled hagree =>
      exact absurd (hagree.cancelled.mpr List.mem_concat_self) hnot
  | stored text hread hcalled hagree =>
      have hagain : c.workspace.found disk l = .text text := (hagree.found_eq disk).trans hread
      have hput := unit_storeModel_self (b.beginParse l).2 l text (Document.ofText text)
      obtain ⟨u, hu, hsame⟩ := hagree.exists_unit hput
      refine ⟨⟨fun hnone => ?_, fun found hfound => ?_⟩, fun _ _ => ⟨?_, ?_⟩⟩
      · rw [hagain] at hnone
        cases hnone
      · rw [hagain] at hfound
        cases hfound
        refine ⟨u, hu, ?_⟩
        unfold ofTracked
        rw [hconfig, if_neg Bool.false_ne_true]
        exact hsame
      · rw [hagree.contains_eq]
        exact LocationMap.contains_erase_self _ l
      · exact hagree.touched.mpr (LocationSet.mem_toList_add.mpr (.inl rfl))

end Build

namespace Workspace

variable {ws : Workspace} {disk : Disk} {changed deleted : List Location} {l m : Location}
  {last : Build} {models : LocationSet}

namespace LoadsFiles

/-- A file without a text does not get one while manifests are loaded. -/
theorem found_behindManifests (h : ws.LoadsFiles disk changed deleted last models)
    (hsettled : ws.Settled) (hnone : ∀ text, ws.found disk l ≠ .text text) :
    last.behindManifests.workspace.found disk l = ws.found disk l := by
  refine found_eq_of_closed (fun hbuffer => ?_) hnone
  have hlocal := Build.isLocal_noBuffer l
  have hbegun := hlocal.deleteAll (b := { workspace := ws }) hbuffer (deleted.map disk.canonical)
  exact h.behindManifests hlocal hbegun (fun _ _ _ _ hb => hb) hsettled

/-- The manifests that an update was asked to load have been loaded. -/
theorem visited (h : ws.LoadsFiles disk changed deleted last models) (hsettled : ws.Settled)
    (hnothing : ws.NothingBelowMissing disk)
    (hm : m ∈ ((ws.begun disk deleted).queue disk changed).waiting) :
    (last.finished disk models).workspace.Visited disk m := by
  have hbegun := hsettled.loading_begun disk deleted
  have hmanifest : ws.config.isManifest m = true := by
    rw [← hbegun.config_eq]
    exact Build.isManifest_of_mem_queue (.inl hm)
  let P := fun (b : Build) (_ : LocationSet) (waiting : List Location) =>
    Build.Loading ws b ∧
      (∀ l, ws.buffers.get? l = none → b.workspace.buffers.get? l = none) ∧
      (m ∈ waiting ∨ b.workspace.Visited disk m)
  have hmono : ∀ b models waiting more, waiting ⊆ more → P b models waiting → P b models more :=
    fun _ _ _ _ hsub hb => ⟨hb.1, hb.2.1, hb.2.2.imp_left fun hmem => hsub hmem⟩
  have hstep : ∀ b models l waiting, ws.config.isManifest l = true → P b models (l :: waiting) →
      P (b.loadedManifest disk l).1 (models.addAll (b.newModels disk l)) waiting := by
    rintro b models l waiting hl ⟨hb, hclosed, hwhy⟩
    refine ⟨hb.loadedManifest disk hl,
      fun x hx => Build.buffers_loadedManifest (hclosed x hx) disk l, ?_⟩
    by_cases hwaiting : m ∈ waiting
    · exact .inl hwaiting
    · refine .inr (hb.visited_loadedManifest hnothing hclosed hl hmanifest (hwhy.imp_left ?_))
      exact fun hmem => (List.mem_cons.mp hmem).resolve_right hwaiting
  have hstart : P (takePending (ws.begun disk deleted)).2
      ((ws.begun disk deleted).requestedModels disk changed)
      ((ws.begun disk deleted).queue disk changed).waiting := by
    refine ⟨hbegun.congr rfl rfl rfl rfl rfl rfl rfl, fun l hl => ?_, .inl hm⟩
    exact Build.deleteAll_induction (Q := fun b => b.workspace.buffers.get? l = none)
      (fun _ other hb => Build.buffers_delete hb other) (b := { workspace := ws }) hl _
  obtain ⟨hlast, hclosed, hwhy⟩ := Build.loadedManifests_invariant (P := P) hmono hstep
    (fun l hl => hbegun.config_eq ▸ Build.isManifest_of_mem_queue hl) h.loaded hstart
  have hvisited := hwhy.resolve_left List.not_mem_nil
  have hagree : Build.AgreeAt m last (last.finished disk models) :=
    h.loading.agreeAt_of_isManifest h.model hmanifest
  refine ⟨hvisited.toReadsAt.congr ((h.config_eq hsettled).trans hlast.config_eq.symm) hagree,
    fun hextension hnone x hx => ?_⟩
  rw [hagree.found_eq] at hnone
  obtain ⟨hunit, hpackage⟩ := hvisited.hollow hextension hnone x hx
  refine ⟨?_, by rw [Build.packages_behindManifests]; exact hpackage⟩
  have hbehind : last.behindManifests.workspace.units.get? x = none :=
    (Build.isLocal_noUnit x).behindManifests hunit
  rcases Build.outcome_or_agreeAt last disk models x with ⟨⟨hmem, -⟩, houtcome⟩ | ⟨-, hagree⟩
  · -- a model file lies below the manifest and has no text
    have hne : x ≠ m := by
      rintro rfl
      rw [h.model x hmem] at hmanifest
      cases hmanifest
    have hbelow : x.isBelow m = true :=
      (Location.isWithin_iff_eq_or_isBelow.mp hx).resolve_left hne
    have hbefore :=
      hnothing m x hmanifest hextension (found_eq_missing_iff.mp hnone).2 hbelow
    have hsame := h.found_behindManifests hsettled hbefore
    cases houtcome with
    | missing hread hagree =>
        exact hagree.unit_eq_none_iff.mpr (Build.get?_removeUnit _ x).1
    | passedOver hread hagree => exact hagree.unit_eq_none_iff.mpr hbehind
    | putOff text hread hcalled hagree => exact absurd (hsame.symm.trans hread) (hbefore text)
    | stored text hread hcalled hagree => exact absurd (hsame.symm.trans hread) (hbefore text)
  · exact hagree.unit_eq_none_iff.mpr hbehind

/-- Behind an update that called no parse off, a model file that it was asked to load and that
a package owns is tracked as it can be read. -/
theorem readsAt (h : ws.LoadsFiles disk changed deleted last models) (hsettled : ws.Settled)
    (hl : l ∈ models.toList)
    (hnot : l ∉ (last.finished disk models).report.cancelled)
    (howned : ((last.finished disk models).workspace.packages.packageFor? l).isSome = true) :
    (last.finished disk models).workspace.ReadsAt disk l ∧
      (∀ text, (last.finished disk models).workspace.found disk l = .text text →
        (last.finished disk models).workspace.cancelRequests.contains l = false ∧
          l ∈ (last.finished disk models).touched.toList) := by
  rcases Build.outcome_or_agreeAt last disk models l with ⟨-, houtcome⟩ | ⟨hother, -⟩
  · refine houtcome.readsAt ?_ hnot
    rw [h.config_eq hsettled]
    exact h.model l hl
  · exact absurd ⟨hl, howned⟩ hother

end LoadsFiles
end Workspace
end ModelWorkspace
