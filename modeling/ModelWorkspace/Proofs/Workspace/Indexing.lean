import ModelWorkspace.Proofs.Workspace.Prepared

/-!
# Indexing in a build

The units that are indexed are those that have just been parsed, so if packages have not
changed they are among the touched ones.  Behind indexing every model unit has the
entries that its tree asks for: the units that are indexed because they are, all others
because their entries have stayed.
-/

namespace ModelWorkspace

namespace Build

open SourceUnit

variable {old : Workspace} {b : Build} {l : Location} {u : SourceUnit}

theorem isReady_eq_true_iff : isReady u = true ↔ u.isModel = true ∧ u.state = .parsed := by
  unfold isReady
  rw [Bool.and_eq_true_iff, beq_iff_eq]

/-- The locations of the units that are indexed. -/
def readyLocations (b : Build) : List Location :=
  b.readyUnits.map (·.location)

/-- The plans for the units that are indexed. -/
def readyPlans (b : Build) : List UnitPlan :=
  b.readyUnits.filterMap (plan? b.workspace.packages)

/-- The index without the units that are indexed. -/
def clearedIndex (b : Build) : Index :=
  b.workspace.index.clearAll b.readyLocations

/-- The entries that indexing adds. -/
def readyEntries (b : Build) : List IndexEntry :=
  UnitPlan.batchEntries b.clearedIndex.ids b.readyPlans

namespace Loading

theorem mem_readyUnits_iff (h : Loading old b) :
    u ∈ b.readyUnits ↔ b.workspace.units.get? u.location = some u ∧ isReady u = true := by
  unfold readyUnits
  rw [List.mem_filter, LocationMap.mem_values_iff]
  refine and_congr_left fun _ => ⟨?_, fun hu => ⟨_, hu⟩⟩
  rintro ⟨l, hu⟩
  rw [(h.wellFormed l u hu).location_eq]
  exact hu

theorem mem_readyLocations_iff (h : Loading old b) :
    l ∈ b.readyLocations ↔ ∃ u, b.workspace.units.get? l = some u ∧ isReady u = true := by
  unfold readyLocations
  rw [List.mem_map]
  constructor
  · rintro ⟨u, hu, rfl⟩
    exact ⟨u, h.mem_readyUnits_iff.mp hu⟩
  · rintro ⟨u, hu, hready⟩
    have hlocation := (h.wellFormed l u hu).location_eq
    refine ⟨u, h.mem_readyUnits_iff.mpr ⟨?_, hready⟩, hlocation⟩
    rw [hlocation]
    exact hu

/-- A plan is that of a ready unit. -/
theorem exists_of_mem_readyPlans (h : Loading old b) {plan : UnitPlan}
    (hplan : plan ∈ b.readyPlans) :
    ∃ u, b.workspace.units.get? plan.location = some u ∧ isReady u = true ∧
      plan? b.workspace.packages u = some plan := by
  obtain ⟨u, hu, hplan⟩ := List.mem_filterMap.mp hplan
  obtain ⟨hget, hready⟩ := h.mem_readyUnits_iff.mp hu
  refine ⟨u, ?_, hready, hplan⟩
  rw [(plan?_eq_some hplan).1]
  exact hget

theorem readyPlans_sorted (h : Loading old b) :
    b.readyPlans.Pairwise fun p q => p.location < q.location := by
  have hunits : b.readyUnits.Pairwise fun u v => u.location < v.location :=
    (LocationMap.pairwise_values fun l u hu => (h.wellFormed l u hu).location_eq).filter _
  refine hunits.filterMap _ fun u v hlt p hp q hq => ?_
  rw [(plan?_eq_some hp).1, (plan?_eq_some hq).1]
  exact hlt

theorem entries_clearedIndex (h : Loading old b) :
    b.clearedIndex.Coherent ∧
      b.clearedIndex.entries = old.index.entries.filter fun e =>
        e.location ∉ b.touched.toList ∧ e.location ∉ b.readyLocations := by
  obtain ⟨hcoherent, hentries⟩ := Index.entries_clearAll h.coherent b.readyLocations
  refine ⟨hcoherent, hentries.trans ?_⟩
  rw [h.entries_eq, List.filter_filter]
  refine List.filter_congr fun e _ => ?_
  rw [← Bool.decide_and, decide_eq_decide, and_comm]

theorem entries_indexBehind (h : Loading old b) :
    b.indexBehind.Coherent ∧
      b.indexBehind.entries = b.clearedIndex.entries ++ b.readyEntries := by
  obtain ⟨hcoherent, hentries⟩ := h.entries_clearedIndex
  refine ⟨hcoherent.insertAll _, Index.entries_insertAll hcoherent h.readyPlans_sorted ?_⟩
  intro plan hplan e he heq
  obtain ⟨u, hu, hready, -⟩ := h.exists_of_mem_readyPlans hplan
  rw [hentries, List.mem_filter, decide_eq_true_iff] at he
  rw [heq] at he
  exact he.2.2 (h.mem_readyLocations_iff.mpr ⟨u, hu, hready⟩)

theorem exists_of_mem_readyEntries (h : Loading old b) {e : IndexEntry}
    (he : e ∈ b.readyEntries) :
    ∃ u, b.workspace.units.get? e.location = some u ∧ isReady u = true ∧
      ∃ taken, e ∈ u.entriesGiven b.workspace.packages taken := by
  obtain ⟨plan, hplan, taken, hmem⟩ := UnitPlan.mem_batchEntries he
  obtain ⟨u, hu, hready, hown⟩ := h.exists_of_mem_readyPlans hplan
  rw [← (UnitPlan.mem_newEntries hmem).1] at hu
  refine ⟨u, hu, hready, taken, ?_⟩
  unfold entriesGiven
  rw [hown]
  exact hmem

/-- A ready unit is named behind what stays in the index and the ready units before it. -/
theorem filter_readyEntries (h : Loading old b) (hu : b.workspace.units.get? l = some u)
    (hready : isReady u = true) :
    b.readyEntries.filter (fun e => e.location = l) =
      u.entriesGiven b.workspace.packages (b.clearedIndex.ids ++
        (b.readyEntries.filter fun e => e.location < l).map (·.globalId)) := by
  have hlocation := (h.wellFormed l u hu).location_eq
  unfold entriesGiven
  cases hplan : plan? b.workspace.packages u with
  | some plan =>
      have hmem : plan ∈ b.readyPlans := by
        refine List.mem_filterMap.mpr ⟨u, h.mem_readyUnits_iff.mpr ⟨?_, hready⟩, hplan⟩
        rw [hlocation]
        exact hu
      have hfilter : b.readyEntries.filter (fun e => e.location = plan.location) =
          plan.newEntries (b.clearedIndex.ids ++
            (b.readyEntries.filter fun e => e.location < plan.location).map (·.globalId)) :=
        UnitPlan.filter_batchEntries h.readyPlans_sorted hmem
      rw [(plan?_eq_some hplan).1, hlocation] at hfilter
      exact hfilter
  | none =>
      dsimp only
      rw [List.filter_eq_nil_iff]
      intro e he heq
      obtain ⟨plan, hmem, taken, hnew⟩ := UnitPlan.mem_batchEntries he
      obtain ⟨v, hv, -, hown⟩ := h.exists_of_mem_readyPlans hmem
      rw [← (UnitPlan.mem_newEntries hnew).1, of_decide_eq_true heq, hu] at hv
      cases hv
      rw [hplan] at hown
      cases hown

end Loading

namespace Prepared

/-- A model unit has just been parsed, or nothing that concerns it has changed. -/
theorem ready_or_old (h : Prepared old b) (hu : b.workspace.units.get? l = some u)
    (hmodel : u.isModel = true) :
    isReady u = true ∨
      (isReady u = false ∧ b.packagesChanged = false ∧ l ∉ b.touched.toList ∧
        old.units.get? l = some u) := by
  cases hready : isReady u with
  | true => exact Or.inl rfl
  | false =>
      right
      have hstate : u.state ≠ .parsed := by
        intro hparsed
        rw [isReady_eq_true_iff.mpr ⟨hmodel, hparsed⟩] at hready
        cases hready
      rcases h.parsed_or_old l u hu hmodel with ⟨hparsed, -⟩ | ⟨hnot, hbefore⟩
      · exact absurd hparsed hstate
      · refine ⟨rfl, ?_, hnot, hbefore⟩
        cases hchanged : b.packagesChanged with
        | false => rfl
        | true => exact absurd (h.reset hchanged l u hu hmodel) hstate

/-- If packages have not changed, units that are indexed are touched. -/
theorem touched_of_ready (h : Prepared old b) (hold : old.Settled)
    (hchanged : b.packagesChanged = false) (hu : b.workspace.units.get? l = some u)
    (hready : isReady u = true) : l ∈ b.touched.toList := by
  obtain ⟨hmodel, hstate⟩ := isReady_eq_true_iff.mp hready
  rcases h.parsed_or_old l u hu hmodel with ⟨-, hwhy⟩ | ⟨-, hbefore⟩
  · rcases hwhy with htouched | htrue
    · exact htouched
    · rw [hchanged] at htrue
      cases htrue
  · rw [hold.validated hbefore] at hstate
    cases hstate

/-- All entries of a unit that is indexed are new. -/
theorem entriesIn_of_ready (h : Prepared old b) (hu : b.workspace.units.get? l = some u)
    (hready : isReady u = true) :
    b.indexBehind.entriesIn l =
      u.entriesGiven b.workspace.packages (b.clearedIndex.ids ++
        (b.readyEntries.filter fun e => e.location < l).map (·.globalId)) := by
  obtain ⟨hcoherent, hentries⟩ := h.toLoading.entries_indexBehind
  obtain ⟨-, hcleared⟩ := h.toLoading.entries_clearedIndex
  have hnone : b.clearedIndex.entries.filter (fun e => e.location = l) = [] := by
    rw [List.filter_eq_nil_iff]
    intro e he heq
    rw [hcleared, List.mem_filter, decide_eq_true_iff, of_decide_eq_true heq] at he
    exact he.2.2 (h.toLoading.mem_readyLocations_iff.mpr ⟨u, hu, hready⟩)
  rw [hcoherent.entriesIn_eq, hentries, List.filter_append, hnone, List.nil_append]
  exact h.toLoading.filter_readyEntries hu hready

/-- All entries of a unit that is neither indexed nor touched are old. -/
theorem entriesIn_of_not_ready (h : Prepared old b) (hold : old.Settled)
    (hu : b.workspace.units.get? l = some u) (hready : isReady u = false)
    (htouched : l ∉ b.touched.toList) :
    b.indexBehind.entriesIn l = old.index.entriesIn l := by
  obtain ⟨hcoherent, hentries⟩ := h.toLoading.entries_indexBehind
  obtain ⟨-, hcleared⟩ := h.toLoading.entries_clearedIndex
  have hnone : b.readyEntries.filter (fun e => e.location = l) = [] := by
    rw [List.filter_eq_nil_iff]
    intro e he heq
    obtain ⟨v, hv, hv', -⟩ := h.toLoading.exists_of_mem_readyEntries he
    rw [of_decide_eq_true heq, hu] at hv
    cases hv
    rw [hready] at hv'
    cases hv'
  have hkept : b.clearedIndex.entries.filter (fun e => e.location = l) =
      old.index.entries.filter fun e => e.location = l := by
    rw [hcleared, List.filter_filter]
    refine List.filter_congr fun e _ => ?_
    rw [← Bool.decide_and, decide_eq_decide]
    refine ⟨fun hall => hall.1, fun heq => ⟨heq, heq ▸ htouched, fun hmem => ?_⟩⟩
    obtain ⟨v, hv, hv'⟩ := h.toLoading.mem_readyLocations_iff.mp hmem
    rw [heq, hu] at hv
    cases hv
    rw [hready] at hv'
    cases hv'
  rw [hcoherent.entriesIn_eq, hentries, List.filter_append, hnone, List.append_nil, hkept,
    ← hold.coherent.entriesIn_eq]

/-- Behind indexing a model unit has the entries that its tree asks for. -/
theorem entriesIn_indexBehind (h : Prepared old b) (hold : old.Settled)
    (hu : b.workspace.units.get? l = some u) (hmodel : u.isModel = true) :
    ∃ taken, b.indexBehind.entriesIn l = u.entriesGiven b.workspace.packages taken := by
  rcases h.ready_or_old hu hmodel with hready | ⟨hready, hchanged, htouched, hbefore⟩
  · exact ⟨_, h.entriesIn_of_ready hu hready⟩
  · obtain ⟨taken, hentries⟩ := hold.entriesIn_eq l u hbefore hmodel
    rw [h.entriesIn_of_not_ready hold hu hready htouched, hentries, h.packages_eq hchanged]
    exact ⟨taken, rfl⟩

/-- Behind indexing every entry is one of a model unit. -/
theorem tracked_indexBehind (h : Prepared old b) (hold : old.Settled) {e : IndexEntry}
    (he : e ∈ b.indexBehind.entries) :
    ∃ u, b.workspace.units.get? e.location = some u ∧ u.isModel = true := by
  rw [h.toLoading.entries_indexBehind.2, List.mem_append] at he
  rcases he with he | he
  · rw [h.toLoading.entries_clearedIndex.2, List.mem_filter, decide_eq_true_iff] at he
    obtain ⟨u, hu, hmodel⟩ := hold.tracked e he.1
    exact h.kept _ u hu hmodel he.2.1
  · obtain ⟨u, hu, hready, -⟩ := h.toLoading.exists_of_mem_readyEntries he
    exact ⟨u, hu, (isReady_eq_true_iff.mp hready).1⟩

/-- If packages have changed, nothing stays in the index while units are indexed. -/
theorem entries_clearedIndex_of_changed (h : Prepared old b) (hold : old.Settled)
    (hchanged : b.packagesChanged = true) : b.clearedIndex.entries = [] := by
  rw [h.toLoading.entries_clearedIndex.2, List.filter_eq_nil_iff]
  intro e he hboth
  obtain ⟨htouched, hready⟩ := of_decide_eq_true hboth
  obtain ⟨u, hu, hmodel⟩ := hold.tracked e he
  obtain ⟨v, hv, hkind⟩ := h.kept _ u hu hmodel htouched
  exact hready (h.toLoading.mem_readyLocations_iff.mpr
    ⟨v, hv, isReady_eq_true_iff.mpr ⟨hkind, h.reset hchanged _ v hv hkind⟩⟩)

end Prepared
end Build
end ModelWorkspace
