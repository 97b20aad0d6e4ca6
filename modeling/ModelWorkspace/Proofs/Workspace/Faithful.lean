import ModelWorkspace.Proofs.Workspace.Mirror

/-!
# Updates on a disk whose changes are reported

An update starts from a workspace that mirrors the disk of the last update.  Whatever is
wrong with it behind the deletions is about to be loaded, so behind the manifests the
packages are those of the new disk, and behind the model files the units are, too.
-/

namespace ModelWorkspace
namespace Build

open SourceUnit

variable {old : Workspace} {b : Build} {disk : Disk} {l : Location}

/-! ## The start -/

theorem mem_requested (hquiet : b.workspace.Quiet) {changed : List Location} :
    l ∈ (b.requested disk changed).toList ↔
      l ∈ (Workspace.takePending b).2.workspace.reached disk changed := by
  unfold requested
  rw [LocationSet.mem_toList_addAll]
  refine ⟨fun h => h.resolve_right fun hpending => ?_, Or.inl⟩
  obtain ⟨_, hget⟩ := LocationMap.mem_keys_iff.mp hpending
  change b.workspace.pending.get? l = some _ at hget
  rw [hquiet.pending] at hget
  cases hget

/-- Tracked files that changed locations cover are requested. -/
theorem mem_requested_of_covered (hquiet : b.workspace.Quiet) (hdisk : disk.Plain)
    {changed : List Location} {text : String} (htext : disk.files.get? l = some text)
    (hcovered : Covered changed l) (htracked : b.workspace.config.isTracked l = true) :
    l ∈ (b.requested disk changed).toList := by
  rw [mem_requested hquiet]
  exact hdisk.mem_reached htext hcovered htracked

theorem mem_requestedManifests_of_covered (hquiet : b.workspace.Quiet) (hdisk : disk.Plain)
    {changed : List Location} {text : String} (htext : disk.files.get? l = some text)
    (hcovered : Covered changed l) (hl : b.workspace.config.isManifest l = true) :
    l ∈ b.requestedManifests disk changed :=
  List.mem_filter.mpr ⟨mem_requested_of_covered hquiet hdisk htext hcovered
    (isTracked_of_isManifest hl), hl⟩

theorem mem_requestedModels_of_covered (hquiet : b.workspace.Quiet) (hdisk : disk.Plain)
    {changed : List Location} {text : String} (htext : disk.files.get? l = some text)
    (hcovered : Covered changed l) (hfile : b.workspace.config.isModelFile l = true)
    (hnot : b.workspace.config.isManifest l = false) :
    l ∈ (b.requestedModels disk changed).toList :=
  mem_requestedModels.mpr ⟨mem_requested_of_covered hquiet hdisk htext hcovered
    (isTracked_of_isModelFile hfile), hnot⟩

/-- No file lies below a manifest that a build may load. -/
theorem childless_of_mem_queue (hquiet : b.workspace.Quiet) (hdisk : disk.Plain)
    {changed : List Location}
    (h : l ∈ (b.queue disk changed).waiting ∨ l ∈ (b.queue disk changed).unseen) :
    disk.Childless l := by
  rcases h with h | h
  · have hrequested := List.mem_of_mem_filter (List.mem_reverse.mp h)
    rw [mem_requested hquiet] at hrequested
    exact hdisk.childless_of_mem_reached hrequested
  · have hmem := LocationSet.mem_toList_ofList.mp (List.mem_of_mem_filter h)
    rw [hdisk.map_canonical] at hmem
    obtain ⟨text, htext⟩ := LocationMap.mem_keys_iff.mp hmem
    exact fun f other hf => hdisk.not_nested l text f other htext hf

namespace Pruned

variable {gone changed : List Location} {before : Disk} {lost lost' : Location → Prop}

/-- What the deletions leave wrong with the model units is about to be loaded.  A file is
lost if it was erased, or lost before, and nothing covers it. -/
theorem adopting (h : Pruned old gone b) (htracks : old.Tracks before lost)
    (hdisk : disk.Plain) (hannounced : before.Announced disk changed gone)
    (hlost : ∀ f text, disk.files.get? f = some text → ¬ Covered changed f →
      Erased gone f ∨ lost f → lost' f) :
    Adopting old disk lost' (b.requestedModels disk changed) (Workspace.takePending b).2 := by
  have hconfig := h.loading.config_eq
  have hmodels : ∀ {f text}, disk.files.get? f = some text → Covered changed f →
      old.config.isModelFile f = true → old.config.isManifest f = false →
        f ∈ (b.requestedModels disk changed).toList := by
    intro f text htext hcovered hfile hnot
    rw [← hconfig] at hfile hnot
    exact mem_requestedModels_of_covered h.quiet hdisk htext hcovered hfile hnot
  exact
    { loading := h.loading.congr rfl rfl rfl rfl rfl rfl rfl
      quiet := ⟨h.quiet.buffers, h.quiet.cancelRequests, fun _ => rfl⟩
      unit_file := by
        intro f u hu hmodel
        have hbefore := h.unit_of_left f u hu
        obtain ⟨hfile, htext⟩ := htracks.unit_file f u hbefore hmodel
        have hnot := (h.loading.wellFormed f u hu).isManifest_eq_false hmodel
        refine ⟨hfile, ?_⟩
        cases hnew : disk.files.get? f with
        | none =>
            -- the file is gone, and with it the unit
            have hgone := h.unit_gone f (hannounced.removed f _ htext hnew)
              (extension_of_isModelFile hfile)
            change b.workspace.units.get? f = some u at hu
            rw [hgone] at hu
            cases hu
        | some other =>
            rcases hannounced.same_or_covered hnew with hsame | hcovered
            · exact Or.inl (hsame.symm.trans htext)
            · exact Or.inr (hmodels hnew hcovered hfile hnot)
      file_unit := by
        intro f text htext hfile hnot howned
        by_cases hcovered : Covered changed f
        · exact Or.inr (Or.inl (hmodels htext hcovered hfile hnot))
        · have hsame := (hannounced.same_or_covered htext).resolve_right hcovered
          have hbefore : (old.packages.packageFor? f).isSome = true := by
            obtain ⟨root, p, hp, hbelow⟩ := PackageGraph.packageFor?_isSome_iff.mp howned
            exact PackageGraph.packageFor?_isSome_iff.mpr
              ⟨root, p, h.package_of_left root p hp, hbelow⟩
          rcases htracks.file_unit f text hsame hfile hnot hbefore with hf | ⟨u, hu, hmodel⟩
          · exact Or.inl (hlost f text htext hcovered (Or.inr hf))
          · rcases h.unit_left f u hu with hleft | herased
            · exact Or.inr (Or.inr ⟨u, hleft, hmodel⟩)
            · exact Or.inl (hlost f text htext hcovered (Or.inl herased))
      tracked := by
        intro f hf
        obtain ⟨hmem, hnot⟩ := mem_requestedModels.mp hf
        rw [mem_requested h.quiet] at hmem
        have htracked := Workspace.isTracked_of_mem_reached hmem
        change b.workspace.config.isTracked f = true at htracked
        rw [hconfig] at htracked hnot
        exact ⟨htracked, hnot⟩ }

/-- What the deletions leave wrong is about to be loaded. -/
theorem catching (h : Pruned old gone b) (hmirrors : old.Mirrors before)
    (hdisk : disk.Plain) (hreported : before.Reported disk changed gone)
    (hextension : ∀ m, old.config.isManifest m = true → m.extension.isSome = true) :
    Catching old disk (b.requestedManifests disk changed) (b.requestedModels disk changed)
      (Workspace.takePending b).2 := by
  have hmanifests : ∀ {m text}, disk.files.get? m = some text → Covered changed m →
      old.config.isManifest m = true → m ∈ b.requestedManifests disk changed := by
    intro m text htext hcovered hm
    rw [← h.loading.config_eq] at hm
    exact mem_requestedManifests_of_covered h.quiet hdisk htext hcovered hm
  -- what is erased but still there is covered, so no file is lost
  have hlost : ∀ f text, disk.files.get? f = some text → ¬ Covered changed f →
      Erased gone f ∨ False → False := by
    intro f text htext hnot herased
    exact hnot (hreported.restored f text htext (herased.resolve_right id).covered)
  refine ⟨h.adopting hmirrors.toTracks hdisk hreported.toAnnounced hlost, ?_, ?_⟩
  · intro root p hp
    have hpackage := h.package_of_left root p hp
    obtain ⟨text, htext, hm, hdeclared⟩ := hmirrors.package_declared root p hpackage
    cases hnew : disk.files.get? p.manifest with
    | none =>
        -- the manifest is gone, and with it the package
        have hgone := hreported.removed _ _ htext hnew
        exact absurd rfl (h.package_gone _ hgone (hextension _ hm) hm root p hp)
    | some other =>
        rcases hreported.same_or_covered hnew with hsame | hcovered
        · have heq : other = text := Option.some.inj (hsame.symm.trans htext)
          exact Or.inl ⟨text, by rw [hnew, heq], hm, hdeclared⟩
        · exact Or.inr (hmanifests hnew hcovered hm)
  · rintro m p ⟨text, htext, hm, hdeclared⟩
    rcases hreported.same_or_covered htext with hsame | hcovered
    · have hpackage := hmirrors.declared_package m p ⟨text, hsame, hm, hdeclared⟩
      have hmanifest := (Package.isDeclared_of_bind hdeclared).2.1
      refine (h.package_left _ p hpackage).imp_right fun hcovered => ?_
      rw [hmanifest] at hcovered
      exact hmanifests htext (hreported.restored m text htext hcovered) hm
    · exact Or.inr (hmanifests htext hcovered hm)

end Pruned

/-! ## Model files -/

/-- A build that loads the model files `ls`: all others are as they are on the disk, apart
from files that are lost. -/
structure Filling (old : Workspace) (disk : Disk) (lost : Location → Prop)
    (ls : List Location) (b : Build) : Prop where
  prepared : Prepared old b
  quiet : b.workspace.Quiet
  unit_file : ∀ l u, b.workspace.units.get? l = some u → u.isModel = true →
    old.config.isModelFile l = true ∧ (disk.files.get? l = some u.text ∨ l ∈ ls)
  file_unit : ∀ l text, disk.files.get? l = some text → old.config.isModelFile l = true →
    old.config.isManifest l = false → (b.workspace.packages.packageFor? l).isSome = true →
      lost l ∨ l ∈ ls ∨ ∃ u, b.workspace.units.get? l = some u ∧ u.isModel = true
  files : ∀ l ∈ ls, old.config.isModelFile l = true ∧ old.config.isManifest l = false ∧
    (b.workspace.packages.packageFor? l).isSome = true

theorem get?_reset {u : SourceUnit} (hu : b.reset.workspace.units.get? l = some u) :
    ∃ v, b.workspace.units.get? l = some v ∧ SameSource v u := by
  obtain ⟨v, hv, rfl⟩ := Option.map_eq_some_iff.mp
    ((LocationMap.get?_map _ _ _).symm.trans hu)
  unfold dropOrphans at hv
  rw [get?_removeAll] at hv
  split at hv
  · cases hv
  · exact ⟨v, hv, sameSource_resetUnit v⟩

/-- A unit that a package owns outlives a change of packages. -/
theorem get?_reset_of_owned {u : SourceUnit} (hu : b.workspace.units.get? l = some u)
    (howned : (b.workspace.packages.packageFor? l).isSome = true) :
    b.reset.workspace.units.get? l = some (resetUnit u) := by
  refine (LocationMap.get?_map _ _ _).trans ?_
  unfold dropOrphans
  rw [get?_removeAll, if_neg, hu]
  · rfl
  · intro hmem
    obtain ⟨v, hv, hlocation⟩ := List.mem_map.mp hmem
    obtain ⟨hmodels, horphan⟩ := List.mem_filter.mp hv
    obtain ⟨key, hkey⟩ := LocationMap.mem_values_iff.mp (List.mem_of_mem_filter hmodels)
    rw [hlocation] at horphan
    rw [Option.isNone_iff_eq_none.mp horphan] at howned
    cases howned

/-- Behind the manifests only model files are still to be loaded. -/
theorem Adopting.filling {lost : Location → Prop} {models : LocationSet}
    (h : Adopting old disk lost models b) (hold : old.Settled) {c : Build}
    (hc : c = if b.packagesChanged then b.reset else b) :
    Filling old disk lost
        (models.toList.filter fun l => (c.workspace.packages.packageFor? l).isSome) c ∧
      c.workspace.packages = b.workspace.packages := by
  have hprepared : Prepared old c := hc ▸ h.loading.prepared hold
  have hresetPackages : b.reset.workspace.packages = b.workspace.packages :=
    (frame_removeAll b _).1
  have hpackages : c.workspace.packages = b.workspace.packages := by
    rw [hc]
    split
    · exact hresetPackages
    · rfl
  have hquiet : c.workspace.Quiet := by
    rw [hc]
    split
    · have hdropped : b.dropOrphans.workspace.Quiet := h.quiet.removeAll _
      exact ⟨hdropped.buffers, hdropped.cancelRequests, hdropped.pending⟩
    · exact h.quiet
  -- a reset drops units that no package owns and changes the states of the others
  have hback : ∀ {l u}, c.workspace.units.get? l = some u →
      ∃ v, b.workspace.units.get? l = some v ∧ SameSource v u := by
    intro l u hu
    rw [hc] at hu
    split at hu
    · exact get?_reset hu
    · exact ⟨u, hu, SameSource.refl u⟩
  have hforth : ∀ {l u}, b.workspace.units.get? l = some u → u.isModel = true →
      (b.workspace.packages.packageFor? l).isSome = true →
        ∃ v, c.workspace.units.get? l = some v ∧ v.isModel = true := by
    intro l u hu hmodel howned
    rw [hc]
    split
    · exact ⟨resetUnit u, get?_reset_of_owned hu howned,
        (sameSource_resetUnit u).isModel_eq.trans hmodel⟩
    · exact ⟨u, hu, hmodel⟩
  refine ⟨⟨hprepared, hquiet, ?_, ?_, ?_⟩, hpackages⟩
  · intro l u hu hmodel
    obtain ⟨v, hv, hsame⟩ := hback hu
    obtain ⟨hfile, hcurrent⟩ := h.unit_file l v hv (hsame.isModel_eq.symm.trans hmodel)
    refine ⟨hfile, hcurrent.imp (fun htext => by rw [htext, hsame.text_eq]) fun hl => ?_⟩
    exact List.mem_filter.mpr ⟨hl, hprepared.allOwned l u hu hmodel⟩
  · intro l text htext hfile hnot howned
    refine (h.file_unit l text htext hfile hnot (hpackages ▸ howned)).imp_right ?_
    rintro (hl | ⟨u, hu, hmodel⟩)
    · exact Or.inl (List.mem_filter.mpr ⟨hl, howned⟩)
    · exact Or.inr (hforth hu hmodel (hpackages ▸ howned))
  · intro l hl
    obtain ⟨hmem, howned⟩ := List.mem_filter.mp hl
    obtain ⟨htracked, hnot⟩ := h.tracked l hmem
    refine ⟨?_, hnot, howned⟩
    unfold WorkspaceConfig.isTracked at htracked
    rw [hnot, Bool.or_false] at htracked
    exact htracked

/-- A file that is gone takes its unit with it. -/
theorem loadedModel_of_missing (h : b.workspace.Quiet) (hdisk : disk.Plain)
    (htext : disk.files.get? l = none) : Build.loadedModel disk b l = b.removeUnit l := by
  have hmissing := (h.found_eq_missing_iff hdisk).mpr htext
  rcases loadedModel_cases disk b l with ⟨-, heq⟩ | ⟨hunreadable, -⟩ | ⟨text, hread, -⟩
  · exact heq
  · cases hmissing.symm.trans hunreadable
  · cases hmissing.symm.trans hread

/-- A file that is there is parsed, because nobody asks to call that off. -/
theorem loadedModel_of_text (h : b.workspace.Quiet) (hdisk : disk.Plain) {text : String}
    (htext : disk.files.get? l = some text) :
    Build.loadedModel disk b l =
        (b.beginParse l).2.storeModel l text (Document.ofText text) ∧
      (Build.loadedModel disk b l).workspace.Quiet := by
  have hrequest : b.workspace.cancelRequests.contains l = false := by
    rw [LocationMap.contains_eq_isSome, h.cancelRequests]
    rfl
  have hload : Build.loadedModel disk b l =
      (b.beginParse l).2.storeModel l text (Document.ofText text) := by
    have hread := (h.found_eq_text_iff hdisk).mpr htext
    rcases loadedModel_cases disk b l with ⟨hmissing, -⟩ | ⟨hunreadable, -⟩ |
      ⟨text', hread', ⟨hcalled, -⟩ | ⟨-, heq⟩⟩
    · cases hread.symm.trans hmissing
    · cases hread.symm.trans hunreadable
    · rw [hrequest] at hcalled
      cases hcalled
    · cases hread.symm.trans hread'
      exact heq
  refine ⟨hload, ?_⟩
  rw [hload]
  refine ⟨h.buffers, fun f => ?_, h.pending⟩
  refine (congrArg (LocationMap.get? · f) (b.cancelRequests_beginParse l)).trans ?_
  rw [LocationMap.get?_erase, h.cancelRequests]
  exact ite_self none

namespace Filling

variable {lost : Location → Prop} {rest : List Location}

/-- If what becomes of one model file is right, and nothing else is changed, this file need
not be loaded any more. -/
theorem replace (h : Filling old disk lost (l :: rest) b) {next : Build}
    (hprepared : Prepared old next) (hquiet : next.workspace.Quiet)
    (hpackages : next.workspace.packages = b.workspace.packages)
    (hunits : ∀ f, f ≠ l → next.workspace.units.get? f = b.workspace.units.get? f)
    (hsound : ∀ u, next.workspace.units.get? l = some u → disk.files.get? l = some u.text)
    (hcomplete : ∀ text, disk.files.get? l = some text →
      ∃ u, next.workspace.units.get? l = some u ∧ u.isModel = true) :
    Filling old disk lost rest next := by
  obtain ⟨⟨hfile, -, -⟩, hrest⟩ := List.forall_mem_cons.mp h.files
  refine ⟨hprepared, hquiet, ?_, ?_, hpackages ▸ hrest⟩
  · intro f u hu hmodel
    by_cases hne : f = l
    · subst hne
      exact ⟨hfile, Or.inl (hsound u hu)⟩
    · rw [hunits f hne] at hu
      obtain ⟨hmodelFile, hcurrent⟩ := h.unit_file f u hu hmodel
      exact ⟨hmodelFile, hcurrent.imp_right fun hf => (List.mem_cons.mp hf).resolve_left hne⟩
  · intro f text htext hmodelFile hmanifest hown
    by_cases hne : f = l
    · subst hne
      exact Or.inr (Or.inr (hcomplete text htext))
    · rw [hpackages] at hown
      rw [hunits f hne]
      exact (h.file_unit f text htext hmodelFile hmanifest hown).imp_right fun hunit =>
        hunit.imp_left fun hmem => (List.mem_cons.mp hmem).resolve_left hne

/-- Loading a model file takes it from those that are to be loaded. -/
theorem loadedModel (h : Filling old disk lost (l :: rest) b) (hdisk : disk.Plain) :
    Filling old disk lost rest (Build.loadedModel disk b l) ∧
      (Build.loadedModel disk b l).workspace.packages = b.workspace.packages := by
  obtain ⟨⟨-, hnot, howned⟩, -⟩ := List.forall_mem_cons.mp h.files
  obtain ⟨hprepared, hpackages⟩ := h.prepared.loadedModel disk hnot howned
  refine ⟨?_, hpackages⟩
  cases htext : disk.files.get? l with
  | none =>
      have hload := loadedModel_of_missing h.quiet hdisk htext
      have hunits : ∀ f, (Build.loadedModel disk b l).workspace.units.get? f =
          if f = l then none else b.workspace.units.get? f := by
        intro f
        rw [hload]
        exact LocationMap.get?_erase _ _ _
      refine h.replace hprepared (hload ▸ h.quiet.removeUnit l) hpackages
        (fun f hne => (hunits f).trans (if_neg hne)) (fun u hu => ?_) fun text hf => ?_
      · rw [hunits, if_pos rfl] at hu
        cases hu
      · rw [htext] at hf
        cases hf
  | some text =>
      obtain ⟨hload, hquiet⟩ := loadedModel_of_text h.quiet hdisk htext
      have hunits : ∀ f, (Build.loadedModel disk b l).workspace.units.get? f =
          if f = l then some (ofDocument l text (Document.ofText text))
          else b.workspace.units.get? f := by
        intro f
        rw [hload]
        exact LocationMap.get?_insert _ _ _ _
      refine h.replace hprepared hquiet hpackages
        (fun f hne => (hunits f).trans (if_neg hne)) (fun u hu => ?_) fun _ _ => ?_
      · rw [hunits, if_pos rfl] at hu
        cases hu
        exact htext
      · exact ⟨_, (hunits l).trans (if_pos rfl), rfl⟩

theorem loadAll (h : Filling old disk lost rest b) (hdisk : disk.Plain) :
    Filling old disk lost [] (rest.foldl (Build.loadedModel disk) b) ∧
      (rest.foldl (Build.loadedModel disk) b).workspace.packages = b.workspace.packages := by
  induction rest generalizing b with
  | nil => exact ⟨h, rfl⟩
  | cons l rest ih =>
      obtain ⟨hnext, hpackages⟩ := h.loadedModel hdisk
      obtain ⟨hlast, hsame⟩ := ih hnext
      exact ⟨hlast, hsame.trans hpackages⟩

end Filling

/-! ## The end -/

/-- Indexing, linking and validating leave the sources of units, and all else, alone. -/
theorem frame_finished (b : Build) (disk : Disk) (models : LocationSet) :
    (b.finished disk models).workspace.config = (b.loaded disk models).workspace.config ∧
      (b.finished disk models).workspace.packages = (b.loaded disk models).workspace.packages ∧
      (b.finished disk models).workspace.index = (b.loaded disk models).indexBehind ∧
      ((b.loaded disk models).workspace.Quiet → (b.finished disk models).workspace.Quiet) := by
  obtain ⟨units, heq⟩ := b.exists_finished_eq disk models
  rw [heq]
  exact ⟨rfl, rfl, rfl, fun h => ⟨h.buffers, h.cancelRequests, h.pending⟩⟩

theorem get?_finished (b : Build) (disk : Disk) (models : LocationSet) (l : Location) :
    ∃ f : SourceUnit → SourceUnit, (∀ u, SameSource u (f u)) ∧
      (b.finished disk models).workspace.units.get? l =
        ((b.loaded disk models).workspace.units.get? l).map f := by
  have hrefreshed : ∀ problems u, SameSource u (refreshedUnit problems u) := by
    intro problems u
    unfold refreshedUnit
    split
    · exact ⟨rfl, rfl, rfl, rfl⟩
    · exact SameSource.refl u
  unfold finished
  dsimp only
  split
  · refine ⟨_, fun u => (sameSource_unitBehind (b.loaded disk models) u).trans
      (hrefreshed (b.loaded disk models).indexed.linked.workspace.packages.problems _), ?_⟩
    rw [get?_refreshManifests, get?_linked, Option.map_map]
    rfl
  · exact ⟨_, sameSource_unitBehind (b.loaded disk models), get?_linked _ l⟩

/-- A build that has adopted the files of a disk leaves a workspace that tracks them. -/
theorem Adopting.tracks_finished {lost : Location → Prop} {models : LocationSet}
    (h : Adopting old disk lost models b) (hold : old.Settled) (hdisk : disk.Plain) :
    (b.finished disk models).workspace.Tracks disk lost ∧
      Prepared old (b.loaded disk models) ∧
      (b.finished disk models).workspace.packages = b.workspace.packages := by
  obtain ⟨hstart, hpackages⟩ := h.filling hold rfl
  obtain ⟨hfilled, hsame⟩ := hstart.loadAll hdisk
  change Filling old disk lost [] (b.loaded disk models) at hfilled
  change (b.loaded disk models).workspace.packages = _ at hsame
  obtain ⟨hconfig, hfinished, -, hquiet⟩ := frame_finished b disk models
  rw [hfilled.prepared.config_eq] at hconfig
  refine ⟨⟨hquiet hfilled.quiet, ?_, ?_⟩, hfilled.prepared,
    hfinished.trans (hsame.trans hpackages)⟩
  · intro l u hu hmodel
    obtain ⟨f, hf, hget⟩ := get?_finished b disk models l
    rw [hget] at hu
    obtain ⟨v, hv, rfl⟩ := Option.map_eq_some_iff.mp hu
    obtain ⟨hfile, htext⟩ := hfilled.unit_file l v hv ((hf v).isModel_eq.symm.trans hmodel)
    rw [hconfig, (hf v).text_eq]
    exact ⟨hfile, htext.resolve_right List.not_mem_nil⟩
  · intro l text htext hfile hnot howned
    rw [hconfig] at hfile hnot
    rw [hfinished] at howned
    obtain ⟨f, hf, hget⟩ := get?_finished b disk models l
    refine (hfilled.file_unit l text htext hfile hnot howned).imp_right fun hunit => ?_
    obtain ⟨v, hv, hmodel⟩ := hunit.resolve_left List.not_mem_nil
    refine ⟨f v, ?_, (hf v).isModel_eq.trans hmodel⟩
    rw [hget, hv]
    rfl

/-- A build that has caught up with a disk leaves a workspace that mirrors it. -/
theorem Catching.mirrors_finished {models : LocationSet} (h : Catching old disk [] models b)
    (hold : old.Settled) (hdisk : disk.Plain) :
    (b.finished disk models).workspace.Mirrors disk ∧
      Prepared old (b.loaded disk models) := by
  obtain ⟨htracks, hprepared, hpackages⟩ := h.toAdopting.tracks_finished hold hdisk
  obtain ⟨hconfig, -⟩ := frame_finished b disk models
  rw [hprepared.config_eq] at hconfig
  refine ⟨⟨htracks, ?_, ?_⟩, hprepared⟩
  · intro root p hp
    rw [hpackages] at hp
    rw [hconfig]
    exact (h.package_declared root p hp).resolve_right List.not_mem_nil
  · intro m p hdeclares
    rw [hconfig] at hdeclares
    rw [hpackages]
    exact (h.declared_package m p hdeclares).resolve_right List.not_mem_nil

end Build

namespace Workspace

variable {ws : Workspace} {before disk : Disk} {changed deleted : List Location}

theorem Settled.pruned (h : ws.Settled) (hquiet : ws.Quiet) (hdisk : disk.Plain)
    (deleted : List Location) : Build.Pruned ws deleted (ws.begun disk deleted) := by
  have hall := (Build.Pruned.start h hquiet).deleteAll deleted
  unfold begun
  rw [hdisk.map_canonical]
  exact hall

/-- What a build may load on a plain disk is a manifest without files below it. -/
theorem Settled.mem_queue (h : ws.Settled) (hquiet : ws.Quiet) (hdisk : disk.Plain)
    {m : Location} (hm : m ∈ ((ws.begun disk deleted).queue disk changed).waiting ∨
      m ∈ ((ws.begun disk deleted).queue disk changed).unseen) :
    ws.config.isManifest m = true ∧ disk.Childless m := by
  have hpruned := h.pruned hquiet hdisk deleted
  refine ⟨?_, Build.childless_of_mem_queue hpruned.quiet hdisk hm⟩
  rw [← hpruned.loading.config_eq]
  exact Build.isManifest_of_mem_queue hm

/-- An update on a disk whose changes are announced tracks the files of the new disk.  Files
that were erased or lost before are lost unless they are covered. -/
theorem Tracks.update {lost : Location → Prop} (h : ws.Tracks before lost)
    (hsettled : ws.Settled) (hdisk : disk.Plain)
    (hannounced : before.Announced disk changed deleted) :
    ∃ report next, ws.update disk changed deleted = .ok (report, next) ∧
      next.Settled ∧ next.config = ws.config ∧
      next.Tracks disk fun f => ¬ Covered changed f ∧ (Erased deleted f ∨ lost f) := by
  have hupdate := (ws.update_gives disk changed deleted).eq_ok hdisk.not_splits
  have hpruned := hsettled.pruned h.quiet hdisk deleted
  have hadopting : Build.Adopting ws disk
      (fun f => ¬ Covered changed f ∧ (Erased deleted f ∨ lost f)) _ _ :=
    hpruned.adopting h hdisk hannounced fun _ _ _ hnot hwhy => ⟨hnot, hwhy⟩
  obtain ⟨last, models, hload, hlast⟩ := hadopting.loadedManifests hdisk fun m hm =>
    hsettled.mem_queue h.quiet hdisk hm
  obtain ⟨htracks, hprepared, -⟩ := hlast.tracks_finished hsettled hdisk
  obtain ⟨hconfig, -⟩ := Build.frame_finished last disk models
  rw [updated_eq hload] at hupdate
  exact ⟨_, _, hupdate,
    hlast.loading.settled_finished hsettled disk fun l hl => (hlast.tracked l hl).2,
    hconfig.trans hprepared.config_eq, htracks⟩

/-- An update on a disk whose changes are reported mirrors the new disk.  It ends behind
a build in which all files are loaded. -/
theorem Mirrors.update (h : ws.Mirrors before) (hsettled : ws.Settled) (hdisk : disk.Plain)
    (hreported : before.Reported disk changed deleted)
    (hextension : ∀ m, ws.config.isManifest m = true → m.extension.isSome = true) :
    ∃ report next, ws.update disk changed deleted = .ok (report, next) ∧
      next.Settled ∧ next.Mirrors disk ∧ next.config = ws.config ∧
      ∃ b, Build.Prepared ws b ∧ next.packages = b.workspace.packages ∧
        next.index = b.indexBehind ∧
        ∀ l u, next.units.get? l = some u → ∃ v, b.workspace.units.get? l = some v ∧
          SourceUnit.SameSource v u := by
  have hpruned := hsettled.pruned h.quiet hdisk deleted
  -- the queue starts with all requested manifests, the last location first
  have hqueued := (hpruned.catching h hdisk hreported hextension).mono fun m hm =>
    List.mem_reverse.mpr hm
  obtain ⟨last, models, hload, hlast⟩ := hqueued.loadedManifests hdisk hextension
    (q := (ws.begun disk deleted).queue disk changed) rfl fun m hm =>
      hsettled.mem_queue h.quiet hdisk hm
  obtain ⟨hmirrors, hprepared⟩ := hlast.mirrors_finished hsettled hdisk
  obtain ⟨hconfig, hpackages, hindex, -⟩ := Build.frame_finished last disk models
  refine ⟨(last.finished disk models).report, (last.finished disk models).workspace, ?_,
    hlast.loading.settled_finished hsettled disk fun l hl => (hlast.tracked l hl).2, hmirrors,
    hconfig.trans hprepared.config_eq, last.loaded disk models, hprepared, hpackages, hindex, ?_⟩
  · rw [← updated_eq hload]
    exact (ws.update_gives disk changed deleted).eq_ok hdisk.not_splits
  · intro l u hu
    obtain ⟨f, hf, hget⟩ := Build.get?_finished last disk models l
    rw [hget] at hu
    obtain ⟨v, hv, rfl⟩ := Option.map_eq_some_iff.mp hu
    exact ⟨v, hv, hf v⟩

end Workspace
end ModelWorkspace
