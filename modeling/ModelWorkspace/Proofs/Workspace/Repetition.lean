import ModelWorkspace.Proofs.Index.Queries
import ModelWorkspace.Proofs.Workspace.AsRead

/-!
# Repeating an update

An update that is made once more, with the same files and buffers, finds every manifest as it
left it, so it changes no package and asks for no other files.  The model files that it loads
again get the text that they have.  Their entries leave the index and come back one unit behind
the other: by induction on the order of the units each of them finds those identifiers free that
it had, and those taken that it found taken before.  With the index the links stay.
-/

namespace ModelWorkspace

open SourceUnit

namespace Workspace

/-- Two workspaces track the same at a location, apart from links, diagnostics and states. -/
structure SameAt (ws other : Workspace) (l : Location) : Prop where
  unit : ∀ u, ws.units.get? l = some u →
    ∃ v, other.units.get? l = some v ∧ SameContent u v
  none : ws.units.get? l = none → other.units.get? l = none

namespace SameAt

variable {ws other third : Workspace} {l : Location}

theorem trans (h : SameAt ws other l) (h' : SameAt other third l) : SameAt ws third l where
  unit := by
    intro u hu
    obtain ⟨v, hv, hsame⟩ := h.unit u hu
    obtain ⟨w, hw, hcontent⟩ := h'.unit v hv
    exact ⟨w, hw, hsame.trans hcontent⟩
  none := fun hnone => h'.none (h.none hnone)

theorem of_agreeAt {b c : Build} (h : Build.AgreeAt l b c) :
    SameAt b.workspace c.workspace l :=
  ⟨fun _ hu => h.exists_unit hu, h.unit_eq_none_iff.mpr⟩

theorem unit_of (h : SameAt ws other l) {v : SourceUnit} (hv : other.units.get? l = some v) :
    ∃ u, ws.units.get? l = some u ∧ SameContent u v := by
  cases hu : ws.units.get? l with
  | none =>
      rw [h.none hu] at hv
      cases hv
  | some u =>
      obtain ⟨w, hw, hsame⟩ := h.unit u hu
      rw [hv] at hw
      cases hw
      exact ⟨u, rfl, hsame⟩

end SameAt

/-- A manifest that is tracked decides which package stands in its directory. -/
theorem Registered.byManifest?_eq {ws : Workspace} (h : ws.Registered) (hsettled : ws.Settled)
    {m : Location} (hm : ws.config.isManifest m = true) {u : SourceUnit}
    (hu : ws.units.get? m = some u) :
    ws.packages.byManifest? m = (Manifest.ofText u.text).toOption.bind (Package.ofManifest m) := by
  cases hp : (Manifest.ofText u.text).toOption.bind (Package.ofManifest m) with
  | some p =>
      obtain ⟨-, -, hparent⟩ := Package.isDeclared_of_bind hp
      unfold PackageGraph.byManifest?
      rw [hparent]
      exact h.package_of_manifest m p hm ⟨u, hu, hp⟩
  | none =>
      refine Option.eq_none_iff_forall_ne_some.mpr fun p hfound => ?_
      obtain ⟨root, hparent, hroot⟩ := Option.bind_eq_some_iff.mp hfound
      obtain ⟨hkind, hresolved, hwhy⟩ := h.manifest_of_package root p hroot
      have hown : p.manifest = m :=
        Disk.eq_of_isManifest hresolved (h.located m u hu hm) hkind hm
          ((Build.Loading.start hsettled).parent_manifest hroot).2 hparent
      rw [hown] at hwhy
      rcases hwhy with ⟨v, hv, hyields⟩ | ⟨-, hnone⟩
      · rw [hu] at hv
        cases hv
        rw [hp] at hyields
        cases hyields
      · rw [hu] at hnone
        cases hnone

end Workspace

namespace Build

open Workspace

variable {ws : Workspace} {b : Build} {disk : Disk} {m : Location}

/-- A build has found nothing new so far: what it has loaded is as it was, and what it has
touched is not tracked. -/
structure Idle (ws : Workspace) (b : Build) : Prop where
  packages_eq : b.workspace.packages = ws.packages
  unchanged : b.packagesChanged = false
  unit : ∀ l, SameAt ws b.workspace l
  buffer : ∀ l, b.workspace.buffers.get? l = ws.buffers.get? l
  request : ∀ l, b.workspace.cancelRequests.get? l = ws.cancelRequests.get? l
  touched : ∀ l ∈ b.touched.toList, ws.units.get? l = none

/-! ## Manifests once more -/

theorem declaredPackage_eq_self {text : String} (h : b.workspace.packages.byManifest? m =
    (Manifest.ofText text).toOption.bind (Package.ofManifest m)) :
    b.declaredPackage disk m (Manifest.ofText text).toOption = (b, []) := by
  unfold declaredPackage declarePackage
  dsimp only
  rw [h]
  cases (Manifest.ofText text).toOption.bind (Package.ofManifest m) with
  | none => rfl
  | some p =>
      dsimp only
      rw [if_pos rfl]
      rfl

namespace Idle

theorem found_eq (h : Idle ws b) (disk : Disk) (l : Location) :
    b.workspace.found disk l = ws.found disk l :=
  Workspace.found_congr (h.buffer l) disk

/-- A file that is gone is removed once more. -/
theorem removeUnit (h : Idle ws b) (hgone : ws.units.get? m = none)
    (hbuffer : ws.buffers.get? m = none) : Idle ws (b.removeUnit m) := by
  refine ⟨h.packages_eq, h.unchanged, fun l => ?_, fun l => ?_, h.request, fun l hl => ?_⟩
  · by_cases heq : l = m
    · subst heq
      refine ⟨fun u hu => ?_, fun _ => (get?_removeUnit b l).1⟩
      rw [hgone] at hu
      cases hu
    · exact (h.unit l).trans (.of_agreeAt (agreeAt_removeUnit b heq))
  · by_cases heq : l = m
    · rw [heq, hbuffer]
      exact (get?_removeUnit b m).2.1
    · exact (agreeAt_removeUnit b heq).buffer.trans (h.buffer l)
  · rcases LocationSet.mem_toList_add.mp hl with rfl | hl
    · exact hgone
    · exact h.touched l hl

/-- A manifest that is gone declares no package, so only the file is removed. -/
theorem deleteFile_eq (h : Idle ws b) (hregistered : ws.Registered)
    (hextension : m.extension.isSome = true) (hgone : ws.units.get? m = none) :
    b.deleteFile m = b.removeUnit m := by
  have hdeclares : (b.workspace.packages.byManifest? m).any (·.manifest == m) = false := by
    rw [h.packages_eq, Bool.eq_false_iff]
    intro hany
    obtain ⟨p, hp, hown⟩ := (Option.any_eq_true _ _).mp hany
    obtain ⟨root, -, hroot⟩ := Option.bind_eq_some_iff.mp hp
    obtain ⟨-, -, hwhy⟩ := hregistered.manifest_of_package root p hroot
    rw [beq_iff_eq.mp hown] at hwhy
    rcases hwhy with ⟨u, hu, -⟩ | ⟨hnone, -⟩
    · rw [hgone] at hu
      cases hu
    · rw [hnone] at hextension
      cases hextension
  unfold deleteFile
  dsimp only
  rw [hdeclares, Bool.and_false, if_neg Bool.false_ne_true]

/-- Where neither files nor packages are, the deletion of a directory does nothing. -/
theorem deleteDirectory_eq (h : Idle ws b) (hhollow : ∀ l, l.isWithin m = true →
    ws.units.get? l = none ∧ ws.packages.packages.get? l = none) : b.deleteDirectory m = b := by
  have hunits : b.workspace.units.locationsWithin m = [] := by
    refine List.filter_eq_nil_iff.mpr fun l hl hwithin => ?_
    obtain ⟨u, hu⟩ := LocationMap.mem_keys_iff.mp hl
    rw [(h.unit l).none (hhollow l hwithin).1] at hu
    cases hu
  have hpackages : b.workspace.packages.within m = [] := by
    refine List.eq_nil_iff_forall_not_mem.mpr fun p hp => ?_
    obtain ⟨root, hroot⟩ := LocationMap.mem_values_iff.mp hp
    rw [LocationMap.get?_filter, Option.filter_eq_some_iff, h.packages_eq] at hroot
    rw [(hhollow root hroot.2).2] at hroot
    cases hroot.1
  unfold deleteDirectory
  dsimp only
  rw [hunits, hpackages]
  rfl

/-- A manifest that is missing and gone is deleted once more. -/
theorem delete (h : Idle ws b) (hregistered : ws.Registered) (hvisited : ws.Visited disk m)
    (hmissing : ws.found disk m = .missing) : Idle ws (b.delete m) := by
  have hgone := hvisited.missing hmissing
  unfold Build.delete
  split
  · rename_i hextension
    rw [h.deleteFile_eq hregistered hextension hgone]
    exact h.removeUnit hgone (found_eq_missing_iff.mp hmissing).1
  · rename_i hextension
    have hhollow := hvisited.hollow (Option.not_isSome_iff_eq_none.mp hextension) hmissing
    rw [h.deleteDirectory_eq hhollow]
    exact h

/-- A manifest that has been loaded is loaded once more. -/
theorem loadedManifest (h : Idle ws b) (hsettled : ws.Settled) (hregistered : ws.Registered)
    (hm : ws.config.isManifest m = true) (hvisited : ws.Visited disk m) :
    Idle ws (b.loadedManifest disk m).1 ∧ (b.loadedManifest disk m).2 = [] := by
  rcases b.loadedManifest_cases disk m with ⟨hmissing, heq⟩ | ⟨-, heq⟩ | ⟨text, htext, heq⟩
  · rw [h.found_eq] at hmissing
    rw [heq]
    dsimp only
    exact ⟨h.delete hregistered hvisited hmissing, rfl⟩
  · rw [heq]
    exact ⟨h, rfl⟩
  · rw [h.found_eq] at htext
    obtain ⟨u, hu, hsame⟩ := hvisited.found text htext
    unfold ofTracked at hsame
    rw [if_pos hm] at hsame
    -- what the manifest declares is in the graph, so the graph stays as it is
    have hpackage : (b.withManifest m text).workspace.packages.byManifest? m =
        (Manifest.ofText text).toOption.bind (Package.ofManifest m) := by
      show b.workspace.packages.byManifest? m = _
      rw [h.packages_eq, hregistered.byManifest?_eq hsettled hm hu, hsame.text_eq]
      rfl
    rw [heq, declaredPackage_eq_self hpackage]
    refine ⟨⟨h.packages_eq, h.unchanged, fun l => ?_, h.buffer, h.request, h.touched⟩, rfl⟩
    by_cases heq : l = m
    · subst heq
      have hput := unit_withManifest_self b l text
      refine ⟨fun v hv => ⟨_, hput, ?_⟩, fun hnone => ?_⟩
      · rw [hu] at hv
        cases hv
        exact hsame.symm
      · rw [hu] at hnone
        cases hnone
    · exact (h.unit l).trans (.of_agreeAt (agreeAt_withManifest b text heq))

end Idle

end Build

namespace Workspace

variable {ws next : Workspace} {disk : Disk} {changed deleted : List Location} {l m : Location}
  {last : Build} {models : LocationSet}

/-- An update whose manifests have all been loaded before finds nothing new with them. -/
theorem LoadsFiles.idle (h : ws.LoadsFiles disk changed [] last models) (hsettled : ws.Settled)
    (hregistered : ws.Registered)
    (hvisited : ∀ m ∈ ((ws.begun disk []).queue disk changed).waiting, ws.Visited disk m) :
    Build.Idle ws last ∧ models = (ws.begun disk []).requestedModels disk changed := by
  have hbegun := hsettled.loading_begun disk []
  let P := fun (b : Build) (found : LocationSet) (q : ManifestQueue) =>
    Build.Idle ws b ∧ found = (ws.begun disk []).requestedModels disk changed ∧
      ∀ m ∈ q.waiting, ws.config.isManifest m = true ∧ ws.Visited disk m
  have hstep : ∀ b models l waiting unseen, P b models ⟨l :: waiting, unseen⟩ →
      P (b.loadedManifest disk l).1 (models.addAll (b.newModels disk l))
        (ManifestQueue.offer ⟨waiting, unseen⟩ (b.newFiles disk l)) := by
    rintro b models l waiting unseen ⟨hb, hmodels, hall⟩
    obtain ⟨hkind, hl⟩ := hall l List.mem_cons_self
    obtain ⟨hidle, hnone⟩ := hb.loadedManifest hsettled hregistered hkind hl
    have hfiles : b.newFiles disk l = [] := by
      unfold Build.newFiles
      rw [hnone]
      rfl
    have hnew : b.newModels disk l = [] := by
      unfold Build.newModels
      rw [hfiles]
      rfl
    rw [hfiles, hnew]
    refine ⟨hidle, hmodels, fun m hm => hall m (List.mem_cons_of_mem l ?_)⟩
    have hoffer : (ManifestQueue.offer ⟨waiting, unseen⟩ []).waiting = waiting := by
      unfold ManifestQueue.offer
      simp
    rw [hoffer] at hm
    exact hm
  have hstart : P (takePending (ws.begun disk [])).2
      ((ws.begun disk []).requestedModels disk changed)
      ((ws.begun disk []).queue disk changed) := by
    refine ⟨⟨rfl, rfl, fun l => ⟨fun u hu => ⟨u, hu, .refl u⟩, fun hnone => hnone⟩,
      fun _ => rfl, fun _ => rfl, fun _ hl => ?_⟩, rfl,
      fun m hm => ⟨?_, hvisited m hm⟩⟩
    · exact absurd hl List.not_mem_nil
    · rw [← hbegun.config_eq]
      exact Build.isManifest_of_mem_queue (.inl hm)
  obtain ⟨last', found, unseen, hload, hidle, hmodels, -⟩ :=
    Build.loadedManifests_induction (P := P) hstep hstart
  rw [h.loaded] at hload
  cases hload
  exact ⟨hidle, hmodels⟩

/-- Behind such an update everything is tracked as it was. -/
theorem LoadsFiles.sameAt (h : ws.LoadsFiles disk changed [] last models)
    (hidle : Build.Idle ws last)
    (hreads : ∀ l ∈ models.toList, (ws.packages.packageFor? l).isSome = true →
      ws.ReadsAt disk l ∧
        ∀ text, ws.found disk l = .text text → ws.cancelRequests.contains l = false)
    (l : Location) : SameAt ws (last.finished disk models).workspace l := by
  have hbehind : last.behindManifests = last := if_neg (by rw [hidle.unchanged]; decide)
  rcases Build.outcome_or_agreeAt last disk models l with ⟨⟨hmem, howned⟩, houtcome⟩ | ⟨-, hagree⟩
  · rw [Build.packages_behindManifests, hidle.packages_eq] at howned
    obtain ⟨hreadsAt, hcalled⟩ := hreads l hmem howned
    have hmodel := h.model l hmem
    rw [hbehind] at houtcome
    cases houtcome with
    | missing hread hagree =>
        rw [hidle.found_eq] at hread
        refine ⟨fun u hu => ?_, fun _ => hagree.unit_eq_none_iff.mpr (Build.get?_removeUnit last l).1⟩
        rw [hreadsAt.missing hread] at hu
        cases hu
    | passedOver hread hagree => exact (hidle.unit l).trans (.of_agreeAt hagree)
    | putOff text hread hrequested hagree =>
        rw [hidle.found_eq] at hread
        have hnone := hcalled text hread
        rw [LocationMap.contains_eq_isSome, ← hidle.request, ← LocationMap.contains_eq_isSome,
          hrequested] at hnone
        cases hnone
    | stored text hread hrequested hagree =>
        rw [hidle.found_eq] at hread
        obtain ⟨u, hu, hsame⟩ := hreadsAt.found text hread
        unfold ofTracked at hsame
        rw [hmodel, if_neg Bool.false_ne_true] at hsame
        have hput := Build.unit_storeModel_self (last.beginParse l).2 l text (Document.ofText text)
        obtain ⟨v, hv, hcontent⟩ := hagree.exists_unit hput
        refine ⟨fun w hw => ⟨v, hv, ?_⟩, fun hnone => ?_⟩
        · rw [hu] at hw
          cases hw
          exact hsame.symm.trans hcontent
        · rw [hu] at hnone
          cases hnone
  · rw [hbehind] at hagree
    exact (hidle.unit l).trans (.of_agreeAt hagree)

end Workspace

namespace Build

variable {old next : Workspace} {b c : Build}

/-! ## Indexing once more -/

/-- A build `c` of the workspace `next` indexes units once more that the build `b`, which led
to this workspace, has indexed: it tracks the same files, and the packages are the same. -/
structure Reindexes (b c : Build) (next : Workspace) : Prop where
  packages_eq : c.workspace.packages = b.workspace.packages
  index_eq : next.index = b.indexBehind
  unit : ∀ l v, c.workspace.units.get? l = some v →
    ∃ u, b.workspace.units.get? l = some u ∧ SameContent u v
  kept : ∀ l u, next.units.get? l = some u → ∃ v, c.workspace.units.get? l = some v
  ready : ∀ l ∈ c.readyLocations, l ∈ b.readyLocations

namespace Reindexes

/-- While units are indexed once more the entries of all others stay in the index. -/
theorem mem_clearedIndex_iff (h : Reindexes b c next) (hc : Prepared next c)
    (hnext : next.Settled) {e : IndexEntry} :
    e ∈ c.clearedIndex.entries ↔ e ∈ b.indexBehind.entries ∧ e.location ∉ c.readyLocations := by
  rw [hc.toLoading.entries_clearedIndex.2, List.mem_filter, decide_eq_true_iff, h.index_eq]
  refine and_congr_right fun he => and_iff_right_of_imp fun hready htouched => hready ?_
  rw [← h.index_eq] at he
  obtain ⟨u, hu, hmodel⟩ := hnext.tracked e he
  obtain ⟨v, hv⟩ := h.kept _ u hu
  have hkind : v.isModel = true := by
    rw [(hc.wellFormed _ v hv).isModel_eq, ← (hnext.wellFormed _ u hu).isModel_eq]
    exact hmodel
  rcases hc.parsed_or_old _ v hv hkind with ⟨hstate, -⟩ | ⟨hnot, -⟩
  · exact hc.toLoading.mem_readyLocations_iff.mpr ⟨v, hv, isReady_eq_true_iff.mpr ⟨hkind, hstate⟩⟩
  · exact absurd htouched hnot

/-- A unit that is indexed once more gets the entries that it had, if the units before it do. -/
theorem entriesIn_of_before (h : Reindexes b c next) (hb : Prepared old b)
    (hc : Prepared next c) (hnext : next.Settled) {l : Location} (hl : l ∈ c.readyLocations)
    (hbefore : ∀ e : IndexEntry, e.location < l → e.location ∈ c.readyLocations →
      (e ∈ c.readyEntries ↔ e ∈ b.indexBehind.entries)) :
    c.indexBehind.entriesIn l = b.indexBehind.entriesIn l := by
  obtain ⟨hcoherent, hentries⟩ := hb.toLoading.entries_indexBehind
  obtain ⟨v, hv, hvready⟩ := hc.toLoading.mem_readyLocations_iff.mp hl
  obtain ⟨u, hu, huready⟩ := hb.toLoading.mem_readyLocations_iff.mp (h.ready l hl)
  obtain ⟨w, hw, hsame⟩ := h.unit l v hv
  rw [hu] at hw
  cases hw
  have hfirst := hb.entriesIn_of_ready hu huready
  rw [hc.entriesIn_of_ready hv hvready, hsame.sameSource.entriesGiven_eq, h.packages_eq, hfirst]
  have hcleared : ∀ e, e ∈ c.clearedIndex.entries ↔
      e ∈ b.indexBehind.entries ∧ e.location ∉ c.readyLocations :=
    fun _ => h.mem_clearedIndex_iff hc hnext
  refine entriesGiven_of_subset (fun id hid => ?_) fun e he hid => ?_
  · -- what was taken before is an entry of a unit that stays, or of one that comes first
    have htaken : ∀ e ∈ b.indexBehind.entries,
        (e.location ∈ c.readyLocations → e.location < l) → e.globalId ∈ c.clearedIndex.ids ++
          (c.readyEntries.filter fun e => e.location < l).map (·.globalId) := by
      intro e he hlt
      by_cases hready : e.location ∈ c.readyLocations
      · refine List.mem_append_right _ (List.mem_map_of_mem (List.mem_filter.mpr ⟨?_, ?_⟩))
        · exact (hbefore e (hlt hready) hready).mpr he
        · exact decide_eq_true (hlt hready)
      · exact List.mem_append_left _ (List.mem_map_of_mem ((hcleared e).mpr ⟨he, hready⟩))
    rcases List.mem_append.mp hid with hid | hid
    · obtain ⟨e, he, rfl⟩ := List.mem_map.mp hid
      refine htaken e (hentries ▸ List.mem_append_left _ he) fun hready => ?_
      rw [hb.toLoading.entries_clearedIndex.2, List.mem_filter, decide_eq_true_iff] at he
      exact absurd (h.ready _ hready) he.2.2
    · obtain ⟨e, he, rfl⟩ := List.mem_map.mp hid
      obtain ⟨he, hlt⟩ := List.mem_filter.mp he
      exact htaken e (hentries ▸ List.mem_append_right _ he) fun _ => of_decide_eq_true hlt
  · -- no entry of another unit has an identifier of this one
    rw [← hfirst, hcoherent.entriesIn_eq, List.mem_filter, decide_eq_true_iff] at he
    have hother : ∃ other ∈ b.indexBehind.entries, other.globalId = e.globalId ∧
        (other.location ∈ c.readyLocations → other.location < l) := by
      rcases List.mem_append.mp hid with hid | hid
      · obtain ⟨other, hother, heq⟩ := List.mem_map.mp hid
        obtain ⟨hmem, hnot⟩ := (hcleared other).mp hother
        exact ⟨other, hmem, heq, fun hready => absurd hready hnot⟩
      · obtain ⟨other, hother, heq⟩ := List.mem_map.mp hid
        obtain ⟨hmem, hlt⟩ := List.mem_filter.mp hother
        obtain ⟨w, hw, hready, -⟩ := hc.toLoading.exists_of_mem_readyEntries hmem
        have hlocation := hc.toLoading.mem_readyLocations_iff.mpr ⟨w, hw, hready⟩
        have hlt := of_decide_eq_true hlt
        exact ⟨other, (hbefore other hlt hlocation).mp hmem, heq, fun _ => hlt⟩
    obtain ⟨other, hmem, heq, hlt⟩ := hother
    have hself := hcoherent.entry_unique hmem he.1 heq
    rw [hself, he.2] at hlt
    exact Location.lt_irrefl l (hlt hl)

/-- All units that are indexed once more get the entries that they had. -/
theorem entriesIn_of_ready (h : Reindexes b c next) (hb : Prepared old b)
    (hc : Prepared next c) (hnext : next.Settled) {l : Location} (hl : l ∈ c.readyLocations) :
    c.indexBehind.entriesIn l = b.indexBehind.entriesIn l := by
  -- by induction on the number of units that are indexed first
  induction hcount : (c.readyLocations.toFinset.filter (· < l)).card
    using Nat.strong_induction_on generalizing l with
  | h n ih =>
    refine h.entriesIn_of_before hb hc hnext hl fun e hlt hready => ?_
    have hfewer : (c.readyLocations.toFinset.filter (· < e.location)).card < n := by
      rw [← hcount]
      refine Finset.card_lt_card ((Finset.ssubset_iff_of_subset fun x hx => ?_).mpr
        ⟨e.location, ?_, ?_⟩)
      · obtain ⟨hmem, hbelow⟩ := Finset.mem_filter.mp hx
        exact Finset.mem_filter.mpr ⟨hmem, Location.lt_trans hbelow hlt⟩
      · exact Finset.mem_filter.mpr ⟨List.mem_toFinset.mpr hready, hlt⟩
      · exact fun hmem => Location.lt_irrefl _ (Finset.mem_filter.mp hmem).2
    have hsame := ih _ hfewer hready rfl
    obtain ⟨hcoherent, hentries⟩ := hc.toLoading.entries_indexBehind
    rw [hcoherent.entriesIn_eq, hb.toLoading.entries_indexBehind.1.entriesIn_eq] at hsame
    have hiff : e ∈ c.indexBehind.entries ↔ e ∈ b.indexBehind.entries := by
      have hmem : ∀ {k : Index}, e ∈ k.entries ↔
          e ∈ k.entries.filter fun other => other.location = e.location := by
        intro k
        rw [List.mem_filter]
        exact (and_iff_left (decide_eq_true rfl)).symm
      rw [hmem, hsame, ← hmem]
    rw [← hiff, hentries, List.mem_append]
    refine (or_iff_right fun hcleared => ?_).symm
    exact ((h.mem_clearedIndex_iff hc hnext).mp hcleared).2 hready

/-- Indexing units once more leaves the entries of every unit as they were. -/
theorem entriesIn_eq (h : Reindexes b c next) (hb : Prepared old b)
    (hc : Prepared next c) (hnext : next.Settled) (l : Location) :
    c.indexBehind.entriesIn l = next.index.entriesIn l := by
  by_cases hunit : ∃ v, c.workspace.units.get? l = some v ∧ v.isModel = true
  · obtain ⟨v, hv, hmodel⟩ := hunit
    rcases hc.ready_or_old hv hmodel with hready | ⟨hready, -, htouched, -⟩
    · rw [h.index_eq]
      exact h.entriesIn_of_ready hb hc hnext
        (hc.toLoading.mem_readyLocations_iff.mpr ⟨v, hv, hready⟩)
    · exact hc.entriesIn_of_not_ready hnext hv hready htouched
  · have hnone : ∀ e ∈ next.index.entries, e.location ≠ l := by
      rintro e he rfl
      obtain ⟨u, hu, hmodel⟩ := hnext.tracked e he
      obtain ⟨v, hv⟩ := h.kept _ u hu
      refine hunit ⟨v, hv, ?_⟩
      rw [(hc.wellFormed _ v hv).isModel_eq, ← (hnext.wellFormed _ u hu).isModel_eq]
      exact hmodel
    have hempty : ∀ e ∈ c.indexBehind.entries, e.location ≠ l := by
      rintro e he rfl
      obtain ⟨v, hv, hmodel⟩ := hc.tracked_indexBehind hnext he
      exact hunit ⟨v, hv, hmodel⟩
    rw [hc.toLoading.entries_indexBehind.1.entriesIn_eq, hnext.coherent.entriesIn_eq,
      List.filter_eq_nil_iff.mpr fun e he heq => hempty e he (of_decide_eq_true heq),
      List.filter_eq_nil_iff.mpr fun e he heq => hnone e he (of_decide_eq_true heq)]

end Reindexes

/-- Loading files does not change packages. -/
theorem packagesChanged_loaded (b : Build) (disk : Disk) (models : LocationSet) :
    (b.loaded disk models).packagesChanged = b.packagesChanged := by
  have hload : ∀ (c : Build) l, c.packagesChanged = b.packagesChanged →
      (loadedModel disk c l).packagesChanged = b.packagesChanged := by
    intro c l hc
    rcases loadedModel_cases disk c l with ⟨-, heq⟩ | ⟨-, heq⟩ | ⟨text, -, ⟨-, heq⟩ | ⟨-, heq⟩⟩
    · rw [heq]
      exact hc
    · rw [heq]
      exact hc
    · rw [heq]
      exact hc
    · rw [heq]
      exact hc
  exact loaded_induction (Q := fun c => c.packagesChanged = b.packagesChanged) hload
    (fun _ => (frame_removeAll b _).2.2) rfl models

end Build

namespace Workspace

variable {ws other next : Workspace} {disk : Disk} {changed deleted : List Location}
  {l : Location} {last : Build} {models : LocationSet}

/-! ## Updates once more -/

/-- In a settled workspace links and diagnostics are decided by all the rest. -/
theorem Settled.units_eq_of_sameAt (h : ws.Settled) (hother : other.Settled)
    (hconfig : other.config = ws.config) (hpackages : other.packages = ws.packages)
    (hqueries : ws.index.SameQueries other.index) (hsame : ∀ l, SameAt ws other l) :
    other.units = ws.units := by
  refine LocationMap.ext_get? fun l => ?_
  cases hu : ws.units.get? l with
  | none => exact (hsame l).none hu
  | some u =>
      obtain ⟨v, hv, links, diagnostics, state, rfl⟩ := (hsame l).unit u hu
      rw [hv]
      congr 1
      cases hmodel : u.isModel with
      | true =>
          have hlinks : other.linker.linkDocument u.location u.document.root =
              ws.linker.linkDocument u.location u.document.root := by
            unfold Workspace.linker
            rw [hconfig, hpackages]
            cases u.document.root with
            | none => rfl
            | some root => exact (Linker.link_eq_of_sameQueries hqueries u.location root).symm
          have hlinked : u.linkedBy other.linker = u := by
            have hboth : u.linkedBy other.linker = u.linkedBy ws.linker := by
              unfold linkedBy
              rw [hlinks]
            rw [hboth]
            exact h.linked l u hu hmodel
          refine (hother.linked l _ hv hmodel).symm.trans (Eq.trans ?_ hlinked)
          rfl
      | false =>
          have hmanifest : u.isManifest = true := by
            rw [isManifest_eq_not_isModel, hmodel]
            rfl
          have hdiagnostics : diagnostics = u.diagnostics := by
            rw [h.diagnosed l u hu hmanifest, ← hpackages]
            exact hother.diagnosed l _ hv hmanifest
          have hlinks : links = u.links := by
            rw [(h.wellFormed l u hu).unlinked hmanifest]
            exact (hother.wellFormed l _ hv).unlinked hmanifest
          have hstate : state = u.state := by
            rw [h.validated hu]
            exact hother.validated hv
          rw [hdiagnostics, hlinks, hstate]

/-- Nothing about the files of a workspace has changed. -/
structure SameFiles (ws other : Workspace) : Prop where
  units_eq : other.units = ws.units
  get?_eq : ∀ id, other.index.get? id = ws.index.get? id
  packages_eq : other.packages = ws.packages

namespace LoadsFiles

variable {again : Build} {others : LocationSet}

/-- What an update that is repeated is asked for, the first one was asked for. -/
theorem mem_requested_of_repeated (h : ws.LoadsFiles disk changed [] last models)
    (hsettled : ws.Settled)
    (hcancelled : (last.finished disk models).report.cancelled = [])
    (hl : l ∈ (((last.finished disk models).workspace.begun disk []).requested disk
      changed).toList) : l ∈ ((ws.begun disk []).requested disk changed).toList := by
  have hnext := h.loading.settled_finished hsettled disk h.model
  refine hsettled.mem_requested_iff.mpr (.inl ?_)
  rw [← reached_congr (h.config_eq hsettled)]
  refine (hnext.mem_requested_iff.mp hl).resolve_right fun hpending => ?_
  have hmem := (h.tried hsettled l).pending_iff.mp (mem_pending_of_begun hpending)
  rw [hcancelled] at hmem
  exact absurd hmem List.not_mem_nil

/-- What such an update was asked to load is tracked as it can be read, and no request to call
its parse off is left. -/
theorem readsAt_of_repeated (h : ws.LoadsFiles disk changed [] last models)
    (hsettled : ws.Settled)
    (hcancelled : (last.finished disk models).report.cancelled = [])
    (hl : l ∈ (((last.finished disk models).workspace.begun disk []).requestedModels disk
      changed).toList)
    (howned : ((last.finished disk models).workspace.packages.packageFor? l).isSome = true) :
    (last.finished disk models).workspace.ReadsAt disk l ∧
      (∀ text, (last.finished disk models).workspace.found disk l = .text text →
        (last.finished disk models).workspace.cancelRequests.contains l = false ∧
          l ∈ (last.finished disk models).touched.toList) := by
  obtain ⟨hrequested, hmodel⟩ := Build.mem_requestedModels.mp hl
  refine h.readsAt hsettled (h.requested l ?_) (by rw [hcancelled]; exact List.not_mem_nil) howned
  refine Build.mem_requestedModels.mpr
    ⟨h.mem_requested_of_repeated hsettled hcancelled hrequested, ?_⟩
  rw [(hsettled.loading_begun disk []).config_eq, ← h.config_eq hsettled]
  exact hmodel

/-- An update that is repeated finds nothing new, and tracks everything as it was. -/
theorem idle_of_repeated (h : ws.LoadsFiles disk changed [] last models)
    (hsettled : ws.Settled) (hnothing : ws.NothingBelowMissing disk)
    (hcancelled : (last.finished disk models).report.cancelled = [])
    (hregistered : (last.finished disk models).workspace.Registered)
    (hagain : (last.finished disk models).workspace.LoadsFiles disk changed [] again others) :
    Build.Idle (last.finished disk models).workspace again ∧
      others = ((last.finished disk models).workspace.begun disk []).requestedModels disk
        changed ∧
      ∀ l, SameAt (last.finished disk models).workspace (again.finished disk others).workspace
        l := by
  have hnext := h.loading.settled_finished hsettled disk h.model
  obtain ⟨hidle, hothers⟩ := hagain.idle hnext hregistered fun m hm => by
    obtain ⟨hrequested, hmanifest⟩ := List.mem_filter.mp (List.mem_reverse.mp hm)
    refine h.visited hsettled hnothing (List.mem_reverse.mpr (List.mem_filter.mpr
      ⟨h.mem_requested_of_repeated hsettled hcancelled hrequested, ?_⟩))
    rw [(hsettled.loading_begun disk []).config_eq, ← h.config_eq hsettled]
    exact hmanifest
  refine ⟨hidle, hothers, hagain.sameAt hidle fun l hl howned => ?_⟩
  rw [hothers] at hl
  obtain ⟨hreads, hfound⟩ := h.readsAt_of_repeated hsettled hcancelled hl howned
  exact ⟨hreads, fun text htext => (hfound text htext).1⟩

/-- A file that is touched when an update is repeated was touched the first time, unless it is not
tracked. -/
theorem touched_of_repeated (h : ws.LoadsFiles disk changed [] last models)
    (hsettled : ws.Settled)
    (hcancelled : (last.finished disk models).report.cancelled = [])
    (hidle : Build.Idle (last.finished disk models).workspace again)
    (hothers : others =
      ((last.finished disk models).workspace.begun disk []).requestedModels disk changed)
    {u : SourceUnit} (hu : (last.finished disk models).workspace.units.get? l = some u)
    (htouched : l ∈ (again.finished disk others).touched.toList) :
    l ∈ (last.finished disk models).touched.toList := by
  have hpackages : (again.finished disk others).workspace.packages =
      (last.finished disk models).workspace.packages :=
    (Build.packages_behindManifests again disk others).trans hidle.packages_eq
  have hbehind : again.behindManifests = again := if_neg (by rw [hidle.unchanged]; decide)
  -- before model files are loaded, nothing is touched that is tracked
  have hleft : ¬ Build.AgreeAt l again (again.finished disk others) := by
    intro hagree
    rw [hidle.touched l (hagree.touched.mp htouched)] at hu
    cases hu
  rcases Build.outcome_or_agreeAt again disk others l with
    ⟨⟨hmem, howned⟩, houtcome⟩ | ⟨-, hagree⟩
  · -- it is loaded again, so it was read the first time
    rw [hothers] at hmem
    rw [hpackages] at howned
    rw [hbehind] at houtcome
    obtain ⟨hreads, hfound⟩ := h.readsAt_of_repeated hsettled hcancelled hmem howned
    cases htext : (last.finished disk models).workspace.found disk l with
    | missing =>
        rw [hreads.missing htext] at hu
        cases hu
    | unreadable =>
        exact absurd (houtcome.agreeAt_of_unreadable ((hidle.found_eq disk l).trans htext)) hleft
    | text text => exact (hfound text htext).2
  · rw [hbehind] at hagree
    exact absurd hagree hleft

/-- A model file that is indexed when an update is repeated was indexed the first time. -/
theorem reindexes_of_repeated (h : ws.LoadsFiles disk changed [] last models)
    (hsettled : ws.Settled)
    (hcancelled : (last.finished disk models).report.cancelled = [])
    (hagain : (last.finished disk models).workspace.LoadsFiles disk changed [] again others)
    (hidle : Build.Idle (last.finished disk models).workspace again)
    (hothers : others =
      ((last.finished disk models).workspace.begun disk []).requestedModels disk changed)
    (hsame : ∀ l, SameAt (last.finished disk models).workspace
      (again.finished disk others).workspace l) :
    Build.Reindexes (last.loaded disk models) (again.loaded disk others)
      (last.finished disk models).workspace := by
  have hnext := h.loading.settled_finished hsettled disk h.model
  have hprepared := h.prepared hsettled
  have hprepared' := hagain.prepared hnext
  have hfirst := Build.agreeAt_finished last disk models
  have hsecond := Build.agreeAt_finished again disk others
  have hunit : ∀ l v, (again.loaded disk others).workspace.units.get? l = some v →
      ∃ u, (last.loaded disk models).workspace.units.get? l = some u ∧ SameContent u v := by
    intro l v hv
    obtain ⟨v', hv', hlater⟩ := (hsecond l).exists_unit hv
    obtain ⟨u', hu', hmiddle⟩ := (hsame l).unit_of hv'
    obtain ⟨u, hu, hearlier⟩ := (hfirst l).exists_unit_of hu'
    exact ⟨u, hu, (hearlier.trans hmiddle).trans hlater.symm⟩
  have hpackages : (again.finished disk others).workspace.packages =
      (last.finished disk models).workspace.packages :=
    (Build.packages_behindManifests again disk others).trans hidle.packages_eq
  refine ⟨?_, (Build.frame_finished last disk models).2.2.1, hunit, fun l u hu => ?_,
    fun l hl => ?_⟩
  · rw [← (Build.frame_finished again disk others).2.1, hpackages,
      (Build.frame_finished last disk models).2.1]
  · obtain ⟨v, hv, -⟩ := (hsame l).unit u hu
    obtain ⟨w, hw, -⟩ := (hsecond l).exists_unit_of hv
    exact ⟨w, hw⟩
  · obtain ⟨v, hv, hready⟩ := hprepared'.toLoading.mem_readyLocations_iff.mp hl
    obtain ⟨u, hu, hcontent⟩ := hunit l v hv
    obtain ⟨u', hu', -⟩ := (hfirst l).exists_unit hu
    have hunchanged : (again.loaded disk others).packagesChanged = false :=
      (Build.packagesChanged_loaded again disk others).trans hidle.unchanged
    have htouched := (hsecond l).touched.mpr
      (hprepared'.touched_of_ready hnext hunchanged hv hready)
    have hloaded := h.touched_of_repeated hsettled hcancelled hidle hothers hu' htouched
    have hmodel : u.isModel = true := by
      rw [← hcontent.sameSource.isModel_eq]
      exact (Build.isReady_eq_true_iff.mp hready).1
    rcases hprepared.ready_or_old hu hmodel with hready | ⟨-, -, hnot, -⟩
    · exact hprepared.toLoading.mem_readyLocations_iff.mpr ⟨u, hu, hready⟩
    · exact absurd ((hfirst l).touched.mp hloaded) hnot

end LoadsFiles

/-- An update that calls no parse off, and finds no text below a missing manifest, changes
nothing when it is repeated. -/
theorem Registered.update_repeated (h : ws.Registered) (hsettled : ws.Settled)
    (hadmitted : ws.Admitted) (hdisk : disk.IsResolved) (hchanged : ∀ l ∈ changed, l.IsResolved)
    (hnothing : ws.NothingBelowMissing disk) :
    (ws.update disk changed []).GivesUnless disk.Splits fun (report, next) =>
      report.cancelled = [] →
        (next.update disk changed []).GivesUnless disk.Splits fun (_, last) =>
          SameFiles next last := by
  obtain ⟨last, models, hloads⟩ := hsettled.exists_loadsFiles hadmitted disk changed []
  have hnext := hloads.loading.settled_finished hsettled disk hloads.model
  have hregistered := h.updated hsettled hdisk hchanged []
  have hagain := hadmitted.updated hsettled disk changed []
  refine update_gives_of fun hcancelled => ?_
  rw [updated_eq hloads.loaded] at hregistered hagain hcancelled ⊢
  obtain ⟨again, others, hloads'⟩ := hnext.exists_loadsFiles hagain disk changed []
  obtain ⟨hidle, hothers, hsame⟩ :=
    hloads.idle_of_repeated hsettled hnothing hcancelled hregistered hloads'
  have hlast := hloads'.loading.settled_finished hnext disk hloads'.model
  have hreindexes :=
    hloads.reindexes_of_repeated hsettled hcancelled hloads' hidle hothers hsame
  have hentries : ∀ l, (last.finished disk models).workspace.index.entriesIn l =
      (again.finished disk others).workspace.index.entriesIn l := by
    intro l
    rw [(Build.frame_finished again disk others).2.2.1]
    exact (hreindexes.entriesIn_eq (hloads.prepared hsettled) (hloads'.prepared hnext) hnext l).symm
  have hqueries := Index.sameQueries_of_entriesIn hnext.coherent hlast.coherent hentries
  have hpackages := (Build.packages_behindManifests again disk others).trans hidle.packages_eq
  refine update_gives_of ?_
  rw [updated_eq hloads'.loaded]
  refine ⟨?_, fun id => (hqueries.get?_eq id).symm, hpackages⟩
  exact hnext.units_eq_of_sameAt hlast (hloads'.config_eq hnext) hpackages hqueries hsame

/-- **Repeating an update changes nothing.**  Behind every run on resolved locations, whatever
buffers it has left open: if an update calls no parse off, then the same update once more, with
the same files on the disk, leaves the units with all that is known of them, the index and the
packages as they are, also if the first one has changed packages, or roots compete for a name.
There must be no text below a manifest that is missing on the disk and whose name has no
extension. -/
theorem run_update_repeated (config : WorkspaceConfig) (operations : List Operation)
    (hresolved : ∀ operation ∈ operations, operation.IsResolved) :
    ((Workspace.ofConfig config).run operations).GivesUnless (SplitBy operations) fun ws =>
      ∀ disk changed, disk.IsResolved → (∀ l ∈ changed, l.IsResolved) →
        ws.NothingBelowMissing disk →
          (ws.update disk changed []).GivesUnless disk.Splits fun (report, next) =>
            report.cancelled = [] →
              (next.update disk changed []).GivesUnless disk.Splits fun (_, last) =>
                next.SameFiles last :=
  (((Registered.ofConfig config).run (Settled.ofConfig config) hresolved).and
      ((Admitted.ofConfig config).run (Settled.ofConfig config) operations)).mono
    fun _ ⟨⟨hsettled, hregistered⟩, _, hadmitted⟩ _ _ hdisk hchanged hnothing =>
      hregistered.update_repeated hsettled hadmitted hdisk hchanged hnothing

end Workspace

namespace Histories

open Change Workspace

theorem plain_collision : ∀ c ∈ collision, c.disk.Plain := by
  let places : List Location := [⟨"/p/a.cm"⟩, ⟨"/p/b.cm"⟩, ⟨"/p/package.json"⟩]
  have hpath : ∀ l ∈ places, l = Location.ofPath l.path := by decide +kernel
  have hapart : ∀ a ∈ places, ∀ b ∈ places, a.isBelow b = false := by decide +kernel
  refine plain_edits_empty hpath hapart ?_
  decide +kernel

/-- Of two files that declare one name, the one that had it first keeps it when it is loaded
twice more. -/
theorem run_update_repeated_collision :
    let disk := lastDisk Disk.empty collision
    let changed : List Location := [⟨"/p/package.json"⟩, ⟨"/p/b.cm"⟩]
    ∃ ws, updates {} collision = .ok ws ∧
      ∃ report next, ws.update disk changed [] = .ok (report, next) ∧
        next.index.ids = ["p.X1", "p.X"] ∧
        ∃ again last, next.update disk changed [] = .ok (again, last) ∧
          next.SameFiles last := by
  intro disk changed
  have hpath : ∀ c ∈ collision, ∀ l ∈ c.changed, l = Location.ofPath l.path := by decide +kernel
  have hresolved : ∀ operation ∈ collision.map Change.operation, operation.IsResolved := by
    intro operation hmem disk given hgiven
    obtain ⟨c, hc, rfl⟩ := List.mem_map.mp hmem
    cases hgiven
    exact ⟨(plain_collision c hc).isResolved,
      fun l hl => Location.IsPath.isResolved ⟨l.path, hpath c hc l hl⟩⟩
  have hdisk : disk.IsResolved :=
    (plain_collision (collision.getLast (by decide)) (List.getLast_mem _)).isResolved
  have hchanged : ∀ l ∈ changed, l.IsResolved := by
    have hall : ∀ l ∈ changed, l = Location.ofPath l.path := by decide +kernel
    exact fun l hl => Location.IsPath.isResolved ⟨l.path, hall l hl⟩
  obtain ⟨ws, hrun, hrepeated⟩ := (run_update_repeated {} (collision.map Change.operation)
    hresolved).exists_ok (not_splitBy (by decide +kernel))
  have hread : updates {} collision = .ok ws := hrun
  have hconfig : ws.config = {} := by
    have hfacts : (updates {} collision).toOption.map (·.config) = some {} := by decide +kernel
    exact eq_of_updates hread hfacts
  have hnothing : ws.NothingBelowMissing disk := by
    intro m l hm hextension
    rw [hconfig] at hm
    have hsome := extension_of_isManifest hm
    rw [hextension] at hsome
    cases hsome
  have huncut : ∀ l, ¬ disk.Splits l := Disk.not_splits_of_aliases rfl
  obtain ⟨⟨report, next⟩, hupdate, hagain⟩ :=
    (hrepeated disk changed hdisk hchanged hnothing).exists_ok huncut
  have hfacts : (updates {} collision).toOption.bind (fun ws =>
      (ws.update disk changed []).toOption.map fun result =>
        (result.1.cancelled, result.2.index.ids)) = some ([], ["p.X1", "p.X"]) := by
    decide +kernel
  rw [hread] at hfacts
  have hnext : (ws.update disk changed []).toOption.map (fun result =>
      (result.1.cancelled, result.2.index.ids)) = some ([], ["p.X1", "p.X"]) := hfacts
  rw [hupdate] at hnext
  obtain ⟨hcancelled, hids⟩ := Prod.mk.inj (Option.some.inj hnext)
  obtain ⟨⟨again, last⟩, hrepeat, hsame⟩ := (hagain hcancelled).exists_ok huncut
  exact ⟨ws, hread, report, next, hupdate, hids, again, last, hrepeat, hsame⟩

/-- A file that is open in an editor, below a location called like a manifest; a package around
it is declared, and then the two are called changed several times. -/
def openBelowMissing (times : Nat) : List Operation :=
  let disk := Disk.empty.write ⟨"/manifest"⟩ (manifestAt "/manifest").2
  [.openBuffer Disk.empty ⟨"/p/manifest/l.cm"⟩ (entityAt "/p/manifest/l.cm" "L").2,
    .update disk [⟨"/manifest"⟩] []] ++
    List.replicate times (.update disk [⟨"/p/manifest"⟩, ⟨"/p/manifest/l.cm"⟩] [])

/-- The file is tracked behind the first update and gone behind the second. -/
theorem repeated_update_removes_open_file :
    let config : WorkspaceConfig := { manifestName := "manifest" }
    let facts := fun (ws : Workspace) =>
      ((ws.unit? ⟨"/p/manifest/l.cm"⟩).isSome, ws.index.ids,
        (ws.buffers.get? ⟨"/p/manifest/l.cm"⟩).isSome)
    ((Workspace.ofConfig config).run (openBelowMissing 1)).toOption.map facts =
        some (true, ["p.L"], true) ∧
      ((Workspace.ofConfig config).run (openBelowMissing 2)).toOption.map facts =
        some (false, [], false) := by
  constructor
  · decide +kernel
  · decide +kernel

end Histories
end ModelWorkspace
