import ModelWorkspace.Proofs.Index.Operations
import ModelWorkspace.Proofs.Index.Queries

/-!
# Indexing a unit can be undone

The entries of the other units stay as they are while a unit goes into the index, and the
new ones stand behind them (`entries_insertUnit`).  Taking the unit out again therefore leaves
the entries that taking it out at first would have left.  The tables need not be equal for
that: a package whose last unit is gone keeps an empty group.  But an index that operations
lead to answers by its entries alone (`sameAnswers_of_entries`), and whatever is done next
keeps two such indexes alike (`sameAnswers_run`).
-/

namespace ModelWorkspace
namespace Index

variable {i j index : Index}

/-- The same entries in the same order, and the same answer to every query. -/
structure SameAnswers (i j : Index) : Prop extends SameQueries i j where
  entries_eq : i.entries = j.entries
  contains_eq : ∀ id, i.contains id = j.contains id
  ofKind?_eq : ∀ id kind, i.ofKind? id kind = j.ofKind? id kind
  entriesInPackage_eq : ∀ p, i.entriesInPackage p = j.entriesInPackage p
  findLocal_eq : ∀ l name, i.findLocal l name = j.findLocal l name
  locations_eq : i.locations = j.locations

/-! ## Indexes with the same entries -/

/-- The locations that are listed, and what is listed for each, follow from the entries. -/
theorem byLocation_eq_of_entries (hi : i.Coherent) (hj : j.Coherent) (hlists : i.ListsLocations)
    (hlists' : j.ListsLocations) (h : i.entries = j.entries) : i.byLocation = j.byLocation := by
  refine LocationMap.ext_get? fun l => ?_
  have hids : i.idsIn l = j.idsIn l := by
    rw [hi.idsIn_eq, hj.idsIn_eq, h]
  have hlisted : l ∈ i.locations ↔ l ∈ j.locations := by
    rw [hlists l, hlists' l, h]
  unfold locations at hlisted
  rw [LocationMap.mem_keys_iff, LocationMap.mem_keys_iff] at hlisted
  unfold idsIn at hids
  cases hleft : i.byLocation.get? l with
  | none =>
      cases hright : j.byLocation.get? l with
      | none => rfl
      | some ids =>
          obtain ⟨other, hother⟩ := hlisted.mpr ⟨ids, hright⟩
          rw [hleft] at hother
          cases hother
  | some ids =>
      obtain ⟨other, hother⟩ := hlisted.mp ⟨ids, hleft⟩
      rw [hleft, hother] at hids
      rw [hother]
      exact congrArg some hids

theorem sameAnswers_of_entries (hi : i.Coherent) (hj : j.Coherent) (hlists : i.ListsLocations)
    (hlists' : j.ListsLocations) (h : i.entries = j.entries) : SameAnswers i j := by
  have hget : ∀ id, i.get? id = j.get? id := by
    intro id
    unfold get?
    rw [h]
  have hentries : ∀ l, i.entriesIn l = j.entriesIn l := by
    intro l
    rw [hi.entriesIn_eq, hj.entriesIn_eq, h]
  refine ⟨sameQueries_of_entriesIn hi hj hentries, h, fun id => ?_, fun id kind => ?_,
    fun p => ?_, fun l name => ?_, ?_⟩
  · unfold contains
    rw [h]
  · unfold ofKind?
    rw [hget]
  · rw [hi.entriesInPackage_eq, hj.entriesInPackage_eq, h]
  · unfold findLocal
    rw [hentries]
  · unfold locations
    rw [byLocation_eq_of_entries hi hj hlists hlists' h]

/-- Every operation decides by the entries. -/
theorem entries_apply (hi : i.Coherent) (hj : j.Coherent) (h : i.entries = j.entries)
    (operation : Operation) : (operation.apply i).entries = (operation.apply j).entries := by
  cases operation with
  | insertUnit plan =>
      show (i.insertUnit plan).2.entries = (j.insertUnit plan).2.entries
      rw [entries_insertUnit hi, entries_insertUnit hj, h]
  | removeLocation l =>
      show (i.withoutLocation l).entries = (j.withoutLocation l).entries
      rw [hi.entries_withoutLocation, hj.entries_withoutLocation, h]
  | clear => rfl

/-- Indexes with the same entries stay alike, whatever is done to both. -/
theorem sameAnswers_run (hi : i.Coherent) (hj : j.Coherent) (hlists : i.ListsLocations)
    (hlists' : j.ListsLocations) (h : i.entries = j.entries) (later : List Operation) :
    SameAnswers (i.run later) (j.run later) := by
  induction later generalizing i j with
  | nil => exact sameAnswers_of_entries hi hj hlists hlists' h
  | cons operation rest ih =>
      exact ih (hi.apply operation) (hj.apply operation) (hlists.apply hi operation)
        (hlists'.apply hj operation) (entries_apply hi hj h operation)

/-! ## How many entries there are -/

theorem Coherent.length_idsIn (h : index.Coherent) (l : Location) :
    (index.idsIn l).length = (index.entries.filter fun e => e.location = l).length := by
  rw [h.idsIn_eq, List.length_map]

theorem Insertion.length_assigned_foldl (plan : UnitPlan) (state : Insertion)
    (names : List ElementName) :
    (names.foldl (Insertion.addName plan) state).index.entries.length + state.assigned.length =
      (names.foldl (Insertion.addName plan) state).assigned.length +
        state.index.entries.length := by
  induction names generalizing state with
  | nil => exact Nat.add_comm _ _
  | cons name rest ih =>
      rw [List.foldl_cons]
      by_cases hid : Name.globalId plan.package name.qualified ∈ state.index.ids
      · rw [addName_of_mem hid]
        exact ih state
      · have hlength : (state.index.add (plan.entryOf state.assigned name)).entries.length =
            state.index.entries.length + 1 := List.length_append
        have hnext := ih (addName plan state name)
        rw [addName_of_notMem hid] at hnext ⊢
        simp only [List.length_cons] at hnext
        omega

/-! ## The entries of the unit -/

/-- The entries of the unit itself are the new ones. -/
theorem entriesIn_insertUnit (h : index.Coherent) (plan : UnitPlan) :
    (index.insertUnit plan).2.entriesIn plan.location =
      plan.newEntries ((index.entries.filter fun e => e.location ≠ plan.location).map
        (·.globalId)) := by
  rw [(h.insertUnit plan).entriesIn_eq, entries_insertUnit h, List.filter_append,
    List.filter_filter, List.filter_eq_nil_iff.mpr, List.nil_append, List.filter_eq_self]
  · exact fun e he => decide_eq_true (UnitPlan.mem_newEntries he).1
  · intro e _
    simp

/-- The entries of the other units stand where they stood. -/
theorem others_insertUnit (h : index.Coherent) (plan : UnitPlan) :
    ((index.insertUnit plan).2.entries.filter fun e => e.location ≠ plan.location) =
      index.entries.filter fun e => e.location ≠ plan.location := by
  rw [entries_insertUnit h, List.filter_append, List.filter_filter]
  have hnone : ∀ taken,
      ((plan.newEntries taken).filter fun e => e.location ≠ plan.location) = [] := by
    intro taken
    rw [List.filter_eq_nil_iff]
    intro e he hne
    exact of_decide_eq_true hne (UnitPlan.mem_newEntries he).1
  rw [hnone, List.append_nil]
  simp only [Bool.and_self]

/-- Nothing of the unit has an identifier that another unit holds. -/
theorem notMem_of_mem_entriesIn_insertUnit (h : index.Coherent) {plan : UnitPlan}
    {e : IndexEntry} (he : e ∈ (index.insertUnit plan).2.entriesIn plan.location) :
    e.globalId ∉ (index.entries.filter fun e => e.location ≠ plan.location).map (·.globalId) := by
  rw [entriesIn_insertUnit h] at he
  exact (UnitPlan.mem_entriesOf he).1

/-- The number that is given is that of the new entries. -/
theorem insertUnit_fst (h : index.Coherent) (plan : UnitPlan) :
    (index.insertUnit plan).1 = ((index.insertUnit plan).2.entriesIn plan.location).length := by
  have hcount := Insertion.length_assigned_foldl plan
    ⟨index.withoutLocation plan.location, []⟩
    ((index.withoutLocation plan.location).finalNaming plan).names
  have hall : (index.insertUnit plan).2.entries.length =
      (index.withoutLocation plan.location).entries.length +
        ((index.insertUnit plan).2.entriesIn plan.location).length := by
    rw [entriesIn_insertUnit h, entries_insertUnit h, h.entries_withoutLocation,
      List.length_append]
  have hfst : (index.insertUnit plan).2.entries.length + 0 =
      (index.insertUnit plan).1 + (index.withoutLocation plan.location).entries.length := hcount
  omega

/-- Taking out a unit that has just been indexed leaves what taking it out before leaves. -/
theorem entries_undone (h : index.Coherent) (plan : UnitPlan) :
    ((index.insertUnit plan).2.removeLocation plan.location).2.entries =
      (index.removeLocation plan.location).2.entries := by
  show ((index.insertUnit plan).2.withoutLocation plan.location).entries =
    (index.withoutLocation plan.location).entries
  rw [(h.insertUnit plan).entries_withoutLocation, others_insertUnit h, h.entries_withoutLocation]

/-- **Indexing a unit touches only that unit and can be undone.**  After any operations on an
index that was empty, indexing a unit leaves the entries of all others where they stood.  Its
root is there, with the first of its names, counted from the declared one on, whose global
identifier no other unit holds; nothing else of it has an identifier of another unit either.
Taking the unit out again, which counts the entries it had, leaves an index that cannot be told
from the one without it, now or after anything that is done to both. -/
theorem run_insertUnit_undone (operations : List Operation) (plan : UnitPlan) :
    let index := empty.run operations
    let inserted := index.insertUnit plan
    let others := index.entries.filter fun e => e.location ≠ plan.location
    (inserted.2.entries.filter fun e => e.location ≠ plan.location) = others ∧
      (∃ root rest number, inserted.2.entriesIn plan.location = root :: rest ∧
        inserted.1 = (root :: rest).length ∧
        root.path = ElementPath.root ∧ root.kind = plan.root.kind ∧ root.container = none ∧
        root.globalId = Name.globalId plan.package (Name.candidate plan.rootName number) ∧
        (∀ smaller < number, Name.globalId plan.package (Name.candidate plan.rootName smaller) ∈
          others.map (·.globalId)) ∧
        ∀ e ∈ root :: rest, e.globalId ∉ others.map (·.globalId)) ∧
      (∀ l, (index.removeLocation l).1 = (index.entries.filter fun e => e.location = l).length) ∧
      (inserted.2.removeLocation plan.location).1 = inserted.1 ∧
      ∀ later, ((inserted.2.removeLocation plan.location).2.run later).SameAnswers
        ((index.removeLocation plan.location).2.run later) := by
  intro index inserted others
  obtain ⟨hcoherent, hlists⟩ := coherent_run operations
  have hinserted : inserted.2.Coherent := hcoherent.insertUnit plan
  have hlisted : inserted.2.ListsLocations := hlists.insertUnit hcoherent plan
  refine ⟨others_insertUnit hcoherent plan, ?_, hcoherent.length_idsIn, ?_, ?_⟩
  · obtain ⟨rest, hentries⟩ := plan.newEntries_eq_cons (others.map (·.globalId))
    have hin := (entriesIn_insertUnit hcoherent plan).trans hentries
    have hcount := insertUnit_fst hcoherent plan
    rw [hin] at hcount
    refine ⟨_, rest, Name.freeNumber (Name.globalId plan.package) (others.map (·.globalId))
      plan.rootName 0, hin, hcount, rfl, rfl, rfl, rfl, ?_, ?_⟩
    · exact fun smaller hsmaller =>
        Name.mem_taken_of_lt_freeNumber (Name.globalId plan.package) (Nat.zero_le _) hsmaller
    · intro e he
      exact notMem_of_mem_entriesIn_insertUnit hcoherent (hin ▸ he)
  · have hcount : (inserted.2.removeLocation plan.location).1 =
        (inserted.2.entriesIn plan.location).length := by
      rw [hinserted.entriesIn_eq]
      exact hinserted.length_idsIn plan.location
    exact hcount.trans (insertUnit_fst hcoherent plan).symm
  · exact sameAnswers_run (hinserted.withoutLocation _) (hcoherent.withoutLocation _)
      (hlisted.withoutLocation hinserted _) (hlists.withoutLocation hcoherent _)
      (entries_undone hcoherent plan)

end Index
end ModelWorkspace
