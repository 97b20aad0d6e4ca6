import ModelWorkspace.Proofs.Index.Completeness
import ModelWorkspace.Proofs.Workspace.History
import ModelWorkspace.Proofs.Workspace.Texts

/-!
# Every element is in the index

If all texts of a run declare valid identifiers, the index lists every element of every
unit whose root declares an identifier: one entry for each element, in the order they are
written (`run_entries_complete`).

What is in the index while a unit goes into it is made up of whole units: those whose
entries have stayed, and those that have been indexed before.  So no identifier that the
unit asks for is in use.
-/

namespace ModelWorkspace

theorem SourceUnit.SameSource.listing_eq {u v : SourceUnit} (h : SourceUnit.SameSource u v) :
    v.listing = u.listing := by
  unfold listing
  rw [h.document_eq]

namespace Workspace

/-- A settled workspace whose texts declare valid identifiers, and in which the index lists
all elements that it should. -/
structure Complete (ws : Workspace) : Prop extends Settled ws where
  texts : ws.HasTexts DeclaresIdentifiers
  listed : ∀ l u, ws.units.get? l = some u → u.isModel = true →
    (ws.index.entriesIn l).map (fun e => (e.path, e.kind)) = u.listing

end Workspace

namespace Build

open SourceUnit

variable {old : Workspace} {b : Build} {l : Location} {u : SourceUnit}

/-- If the entries of a location are those of a unit, each of them belongs to the whole
unit. -/
theorem exists_plan_of_entriesGiven {entries : List IndexEntry} {packages : PackageGraph}
    {taken : List String} {text : String} (hdocument : u.document = Document.ofText text)
    (hids : DeclaresIdentifiers text) (hpackages : packages.Declared)
    (hentries : entries.filter (fun e => e.location = l) = u.entriesGiven packages taken)
    {e : IndexEntry} (he : e ∈ entries) (hl : e.location = l) :
    ∃ plan : UnitPlan, ∃ taken, plan.IsNameable ∧ e ∈ plan.newEntries taken ∧
      ∀ other ∈ plan.newEntries taken, other ∈ entries ∧ other.location = l := by
  have hmem : ∀ {other}, other ∈ u.entriesGiven packages taken ↔
      other ∈ entries ∧ other.location = l := by
    intro other
    rw [← hentries, List.mem_filter, decide_eq_true_iff]
  have hgiven := hmem.mpr ⟨he, hl⟩
  unfold entriesGiven at hmem hgiven
  cases hplan : plan? packages u with
  | some plan =>
      rw [hplan] at hmem hgiven
      exact ⟨plan, taken, isNameable_of_plan? hdocument hids hpackages hplan, hgiven,
        fun other hother => hmem.mp hother⟩
  | none =>
      rw [hplan] at hgiven
      exact absurd hgiven List.not_mem_nil

namespace Prepared

/-- The index behind which a unit is indexed is made up of whole units. -/
theorem wholeUnits (h : Prepared old b) (hold : old.Complete)
    (htexts : b.workspace.HasTexts DeclaresIdentifiers) (l : Location) :
    UnitPlan.WholeUnits
      (b.clearedIndex.entries ++ b.readyEntries.filter fun e => e.location < l) := by
  have hcleared := h.toLoading.entries_clearedIndex.2
  intro e he
  rcases List.mem_append.mp he with he | he
  · -- an old unit keeps all its entries or none
    rw [hcleared, List.mem_filter, decide_eq_true_iff] at he
    obtain ⟨hmem, hkept⟩ := he
    obtain ⟨v, hv, hmodel⟩ := hold.tracked e hmem
    obtain ⟨taken, hentries⟩ := hold.entriesIn_eq _ v hv hmodel
    rw [hold.coherent.entriesIn_eq] at hentries
    obtain ⟨plan, taken, hplan, hnew, hall⟩ := exists_plan_of_entriesGiven
      ((hold.wellFormed _ v hv).document_eq hmodel) (hold.texts.units _ v hv) hold.declared
      hentries hmem rfl
    refine ⟨plan, taken, hplan, hnew, fun other hother => List.mem_append_left _ ?_⟩
    obtain ⟨hother, hl⟩ := hall other hother
    rw [hcleared, List.mem_filter, decide_eq_true_iff, hl]
    exact ⟨hother, hkept⟩
  · -- a unit that was indexed before has all its entries at its location
    obtain ⟨hmem, hlt⟩ := List.mem_filter.mp he
    obtain ⟨v, hv, hready, -⟩ := h.toLoading.exists_of_mem_readyEntries hmem
    have hmodel := (isReady_eq_true_iff.mp hready).1
    obtain ⟨plan, taken, hplan, hnew, hall⟩ := exists_plan_of_entriesGiven
      ((h.wellFormed _ v hv).document_eq hmodel) (htexts.units _ v hv) h.declared
      (h.toLoading.filter_readyEntries hv hready) hmem rfl
    refine ⟨plan, taken, hplan, hnew, fun other hother => List.mem_append_right _ ?_⟩
    obtain ⟨hother, hl⟩ := hall other hother
    rw [List.mem_filter, hl]
    exact ⟨hother, hlt⟩

/-- Behind indexing the index lists every model unit. -/
theorem listed (h : Prepared old b) (hold : old.Complete)
    (htexts : b.workspace.HasTexts DeclaresIdentifiers) (hu : b.workspace.units.get? l = some u)
    (hmodel : u.isModel = true) :
    (b.indexBehind.entriesIn l).map (fun e => (e.path, e.kind)) = u.listing := by
  rcases h.ready_or_old hu hmodel with hready | ⟨hready, -, htouched, hbefore⟩
  · have htaken := (h.wholeUnits hold htexts l).rootsTaken
    rw [List.map_append] at htaken
    have howned : (b.workspace.packages.packageFor? u.location).isSome = true := by
      rw [(h.wellFormed l u hu).location_eq]
      exact h.allOwned l u hu hmodel
    rw [h.entriesIn_of_ready hu hready]
    exact map_entriesGiven ((h.wellFormed l u hu).document_eq hmodel) (htexts.units l u hu)
      h.declared howned htaken
  · rw [h.entriesIn_of_not_ready hold.toSettled hu hready htouched]
    exact hold.listed l u hbefore hmodel

end Prepared
end Build

namespace Workspace

namespace Complete

theorem ofConfig (config : WorkspaceConfig) : (Workspace.ofConfig config).Complete where
  toSettled := Settled.ofConfig config
  texts := HasTexts.ofConfig config DeclaresIdentifiers
  listed := fun _ _ h => nomatch h

variable {ws : Workspace}

/-- An update that reads valid identifiers leaves a complete workspace. -/
theorem update (h : ws.Complete) {disk : Disk} (hdisk : disk.HasTexts DeclaresIdentifiers)
    (changed deleted : List Location) :
    (ws.update disk changed deleted).GivesUnless disk.Splits fun (_, next) => next.Complete := by
  refine update_gives_of ?_
  obtain ⟨last, models, hload, hlast, hmodels⟩ := h.toSettled.exists_loading disk changed deleted
  have hprepared : Build.Prepared ws (last.loaded disk models) :=
    (hlast.prepared h.toSettled).loadedModels disk hmodels
  have htexts := h.texts.loaded hdisk hload
  rw [updated_eq hload]
  refine ⟨hlast.settled_finished h.toSettled disk hmodels,
    Build.hasTexts_finished htexts, fun l u hu hmodel => ?_⟩
  obtain ⟨f, hf, hget⟩ := Build.get?_finished last disk models l
  rw [hget] at hu
  obtain ⟨v, hv, rfl⟩ := Option.map_eq_some_iff.mp hu
  rw [(hf v).isModel_eq] at hmodel
  rw [(Build.frame_finished last disk models).2.2.1, (hf v).listing_eq]
  exact hprepared.listed h htexts hv hmodel

/-- An operation that brings along valid identifiers leaves a complete workspace. -/
theorem apply (h : ws.Complete) {operation : Operation}
    (htexts : ∀ text ∈ operation.texts, DeclaresIdentifiers text) :
    (operation.apply ws).GivesUnless operation.Splits Complete := by
  refine Operation.apply_gives (Operation.perform_gives (fun requests => ?_)
    fun buffers disk changed deleted given hrequest _ hbuffers => ?_)
  · exact ⟨h.toSettled.congr rfl rfl rfl rfl, ⟨h.texts.units, h.texts.buffers⟩, h.listed⟩
  · have hopened : Complete { ws with buffers := buffers } := by
      refine ⟨h.toSettled.congr rfl rfl rfl rfl, ⟨h.texts.units, fun l text htext => ?_⟩,
        h.listed⟩
      rcases hbuffers l text htext with hold | ⟨hput, -⟩
      · exact h.texts.buffers l text hold
      · exact htexts text (Operation.mem_texts_of_puts hput)
    exact hopened.update
      (fun l text htext => htexts text (Operation.mem_texts_of_file hrequest htext)) changed deleted

theorem run (h : ws.Complete) {operations : List Operation}
    (htexts : ∀ operation ∈ operations, ∀ text ∈ operation.texts, DeclaresIdentifiers text) :
    (ws.run operations).GivesUnless (SplitBy operations) Complete :=
  run_induction (fun _ operation hmem hcomplete => hcomplete.apply (htexts operation hmem)) h

end Complete

/-- **The index is complete.**  If a run is given no texts but those that declare valid
identifiers, then in the end no identifier is in the index twice, and for each model unit
whose root declares an identifier the index lists one entry for every element, with its
path, in the order they are written.  It lists none for a unit without such a root. -/
theorem run_entries_complete (config : WorkspaceConfig) (operations : List Operation)
    (htexts : ∀ operation ∈ operations, ∀ text ∈ operation.texts, DeclaresIdentifiers text) :
    ((Workspace.ofConfig config).run operations).GivesUnless (SplitBy operations) fun ws =>
      ws.index.ids.Nodup ∧ ∀ l u, ws.unit? l = some u → u.isModel = true →
        (∀ root id, u.document.root = some root → root.id = some id →
          (ws.index.entriesIn l).map (fun e => (e.path, e.kind)) =
            root.descendants.map fun described => (described.1, described.2.kind)) ∧
        ((∀ root, u.document.root = some root → root.id = none) →
          ws.index.entriesIn l = []) := by
  refine ((Complete.ofConfig config).run htexts).mono fun ws hcomplete => ?_
  refine ⟨hcomplete.coherent.ids_nodup, fun l u hu hmodel => ?_⟩
  have hlisted := hcomplete.listed l u hu hmodel
  constructor
  · intro root id hroot hid
    rw [hlisted, SourceUnit.listing_of_root hroot (Option.isSome_of_eq_some hid)]
  · intro hnone
    rw [SourceUnit.listing_of_anonymous hnone] at hlisted
    exact List.map_eq_nil_iff.mp hlisted

end Workspace

namespace Histories

open Change Workspace

/-- A model file with an entity whose attributes declare one name twice, and once none. -/
def crowdedAt (path : String) : Location × String :=
  (⟨path⟩, "entity:\n  id: X\n  attributes:\n    - id: a\n    - id: a\n    - type: t\n")

/-- Two files of a package declare the same names. -/
def crowded : List Change :=
  edits Disk.empty [manifestAt "/p/package.json", crowdedAt "/p/a.cm", crowdedAt "/p/b.cm"]

theorem run_entries_complete_crowded :
    ∃ ws, updates {} crowded = .ok ws ∧
      (ws.index.entriesIn ⟨"/p/b.cm"⟩).map (·.globalId) =
        ["p.X1", "p.X1.a", "p.X1.a1", "p.X1.attributes@2"] ∧
      (ws.index.entriesIn ⟨"/p/b.cm"⟩).map (fun e => (e.path, e.kind)) =
        [([], .entity), ([⟨"attributes", 0⟩], .entityAttribute),
          ([⟨"attributes", 1⟩], .entityAttribute), ([⟨"attributes", 2⟩], .entityAttribute)] := by
  have htexts : ∀ operation ∈ crowded.map Change.operation, ∀ text ∈ operation.texts,
      DeclaresIdentifiers text := by
    decide +kernel
  obtain ⟨ws, hrun, -, hall⟩ := (run_entries_complete {} _ htexts).exists_ok
    (not_splitBy (by decide +kernel))
  have hread : updates {} crowded = .ok ws := hrun
  have hnames : (updates {} crowded).toOption.map (fun ws =>
      (ws.index.entriesIn ⟨"/p/b.cm"⟩).map (·.globalId)) =
        some ["p.X1", "p.X1.a", "p.X1.a1", "p.X1.attributes@2"] := by
    decide +kernel
  have hunit : ((updates {} crowded).toOption.bind (·.unit? ⟨"/p/b.cm"⟩)).map (fun u =>
      (u.isModel, u.document.root.bind (·.id), u.listing)) =
        some (true, some "X",
          [([], .entity), ([⟨"attributes", 0⟩], .entityAttribute),
            ([⟨"attributes", 1⟩], .entityAttribute),
            ([⟨"attributes", 2⟩], .entityAttribute)]) := by
    decide +kernel
  rw [hread] at hnames hunit
  obtain ⟨u, hu, hfacts⟩ := Option.map_eq_some_iff.mp hunit
  obtain ⟨hmodel, hfacts⟩ := Prod.mk.inj hfacts
  obtain ⟨hid, hlisting⟩ := Prod.mk.inj hfacts
  obtain ⟨root, hroot, hid⟩ := Option.bind_eq_some_iff.mp hid
  have hlisted := (hall _ u hu hmodel).1 root "X" hroot hid
  refine ⟨ws, hread, Option.some.inj hnames, ?_⟩
  rw [hlisted, ← hlisting, SourceUnit.listing_of_root hroot (Option.isSome_of_eq_some hid)]

end Histories
end ModelWorkspace
