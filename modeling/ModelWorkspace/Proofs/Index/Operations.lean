import ModelWorkspace.Proofs.Index.Insert

/-!
# Indexes that operations lead to

Whatever is done to an index, one unit after the other, its tables show what its entries
say.  The tables by unit, by package and by container follow from coherence; that no
location is listed which has no entries is shown here.  It rests on what adding an entry
and removing a location do to the listed locations.
-/

namespace ModelWorkspace
namespace Index

/-- What may be done to an index. -/
inductive Operation where
  | insertUnit (plan : UnitPlan)
  | removeLocation (l : Location)
  | clear

/-- The index behind an operation. -/
def Operation.apply (index : Index) : Operation → Index
  | .insertUnit plan => (index.insertUnit plan).2
  | .removeLocation l => (index.removeLocation l).2
  | .clear => empty

/-- The index behind some operations, one after the other. -/
def run (index : Index) (operations : List Operation) : Index :=
  operations.foldl Operation.apply index

/-- The listed locations are those of the entries. -/
def ListsLocations (index : Index) : Prop :=
  ∀ l, l ∈ index.locations ↔ ∃ e ∈ index.entries, e.location = l

variable {index : Index}

/-! ## Listed locations -/

theorem listsLocations_empty : ListsLocations empty := by
  intro l
  constructor
  · exact fun h => absurd h List.not_mem_nil
  · rintro ⟨e, he, -⟩
    exact absurd he List.not_mem_nil

theorem ListsLocations.add (h : index.ListsLocations) (entry : IndexEntry) :
    (index.add entry).ListsLocations := by
  intro l
  have hkeys : l ∈ (index.add entry).locations ↔ l = entry.location ∨ l ∈ index.locations := by
    unfold locations Index.add
    rw [LocationMap.mem_keys_iff, LocationMap.mem_keys_iff, LocationMap.get?_insert]
    by_cases hl : l = entry.location
    · simp [hl]
    · simp [hl]
  rw [hkeys, h l]
  constructor
  · rintro (rfl | ⟨e, he, hl⟩)
    · exact ⟨entry, List.mem_append_right _ (List.mem_singleton_self _), rfl⟩
    · exact ⟨e, List.mem_append_left _ he, hl⟩
  · rintro ⟨e, he, rfl⟩
    rcases List.mem_append.mp he with he | he
    · exact Or.inr ⟨e, he, rfl⟩
    · exact Or.inl (by rw [List.mem_singleton.mp he])

theorem ListsLocations.withoutLocation (h : index.ListsLocations) (hcoherent : index.Coherent)
    (l : Location) : (index.withoutLocation l).ListsLocations := by
  intro other
  have hkeys : other ∈ (index.withoutLocation l).locations ↔
      other ≠ l ∧ other ∈ index.locations := by
    unfold locations Index.withoutLocation
    simp only [LocationMap.mem_keys_iff, LocationMap.get?_erase_eq_some_iff, exists_and_left]
  rw [hkeys, h other, hcoherent.entries_withoutLocation]
  constructor
  · rintro ⟨hne, e, he, rfl⟩
    exact ⟨e, List.mem_filter.mpr ⟨he, decide_eq_true hne⟩, rfl⟩
  · rintro ⟨e, he, rfl⟩
    obtain ⟨hmem, hne⟩ := List.mem_filter.mp he
    exact ⟨of_decide_eq_true hne, e, hmem, rfl⟩

theorem ListsLocations.addNames {plan : UnitPlan} {state : Insertion}
    (h : state.index.ListsLocations) (names : List ElementName) :
    (names.foldl (Insertion.addName plan) state).index.ListsLocations := by
  induction names generalizing state with
  | nil => exact h
  | cons name rest ih =>
      refine ih ?_
      by_cases hid : Name.globalId plan.package name.qualified ∈ state.index.ids
      · rw [Insertion.addName_of_mem hid]
        exact h
      · rw [Insertion.addName_of_notMem hid]
        exact h.add _

theorem ListsLocations.insertUnit (h : index.ListsLocations) (hcoherent : index.Coherent)
    (plan : UnitPlan) : (index.insertUnit plan).2.ListsLocations :=
  (h.withoutLocation hcoherent plan.location).addNames _

/-! ## One operation, and all of them -/

theorem Coherent.apply (h : index.Coherent) (operation : Operation) :
    (operation.apply index).Coherent := by
  cases operation with
  | insertUnit plan => exact h.insertUnit plan
  | removeLocation l => exact h.removeLocation l
  | clear => exact coherent_empty

theorem ListsLocations.apply (h : index.ListsLocations) (hcoherent : index.Coherent)
    (operation : Operation) : (operation.apply index).ListsLocations := by
  cases operation with
  | insertUnit plan => exact h.insertUnit hcoherent plan
  | removeLocation l => exact h.withoutLocation hcoherent l
  | clear => exact listsLocations_empty

theorem coherent_run (operations : List Operation) :
    (empty.run operations).Coherent ∧ (empty.run operations).ListsLocations := by
  -- every operation keeps both, so the run does whatever it starts from
  have hrun : ∀ (operations : List Operation) (index : Index), index.Coherent →
      index.ListsLocations → (index.run operations).Coherent ∧
        (index.run operations).ListsLocations := by
    intro operations
    induction operations with
    | nil => exact fun _ hcoherent hlists => ⟨hcoherent, hlists⟩
    | cons operation rest ih =>
        exact fun index hcoherent hlists =>
          ih (operation.apply index) (hcoherent.apply operation) (hlists.apply hcoherent operation)
  exact hrun operations empty coherent_empty listsLocations_empty

/-- No entry is listed twice. -/
theorem Coherent.nodup_entries (h : index.Coherent) : index.entries.Nodup :=
  List.Nodup.of_map _ h.ids_nodup

/-- **The tables of an index agree with its entries.**  After any operations on an index that
was empty, the entries of a unit, those of a package and those directly below an element are
found by going through all entries, in the same order and each one once; and the locations
that are listed, each one once, are those of the entries. -/
theorem run_tables_agree (operations : List Operation) :
    let index := empty.run operations
    (∀ l, index.entriesIn l = (index.entries.filter fun e => e.location = l) ∧
        (index.entriesIn l).Nodup) ∧
      (∀ p, index.entriesInPackage p = (index.entries.filter fun e => e.package = p) ∧
        (index.entriesInPackage p).Nodup) ∧
      (∀ c, index.membersOf c = (index.entries.filter fun e => e.container = some c) ∧
        (index.membersOf c).Nodup) ∧
      index.locations.Nodup ∧
      ∀ l, l ∈ index.locations ↔ ∃ e ∈ index.entries, e.location = l := by
  intro index
  obtain ⟨hcoherent, hlists⟩ := coherent_run operations
  have honce : ∀ p : IndexEntry → Bool, (index.entries.filter p).Nodup :=
    fun p => hcoherent.nodup_entries.filter p
  refine ⟨fun l => ?_, fun p => ?_, fun c => ?_, LocationMap.nodup_keys _, hlists⟩
  · have heq := hcoherent.entriesIn_eq l
    exact ⟨heq, heq ▸ honce _⟩
  · have heq := hcoherent.entriesInPackage_eq p
    exact ⟨heq, heq ▸ honce _⟩
  · have heq := hcoherent.membersOf_eq c
    exact ⟨heq, heq ▸ honce _⟩

end Index
end ModelWorkspace
