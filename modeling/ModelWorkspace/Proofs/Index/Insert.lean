import ModelWorkspace.Proofs.Index.Coherence

/-!
# What indexing a unit does to the index

`UnitPlan.newEntries` says which entries a unit gets when some identifiers are taken.
Indexing a unit leaves the entries of all other units as they are and puts these
entries behind them (`entries_insertUnit`), and it keeps the index coherent.  The new
entries depend on which identifiers are taken, but not on the order of the index
(`newEntries_congr`).
-/

namespace ModelWorkspace
namespace UnitPlan

/-- The entry of one element, given the identifiers of the elements before it. -/
def entryOf (plan : UnitPlan) (assigned : List (ElementPath × String)) (name : ElementName) :
    IndexEntry :=
  { globalId := Name.globalId plan.package name.qualified
    localId := name.own
    localName := name.qualified
    container := name.path.parent?.bind fun parent => assigned.lookup parent
    location := plan.location
    path := name.path
    kind := name.kind
    package := plan.package }

/-- The entries of some elements of a unit, in order.  An element whose identifier is
taken gets none. -/
def entriesOf (plan : UnitPlan) :
    (taken : List String) → (assigned : List (ElementPath × String)) →
      List ElementName → List IndexEntry
  | _, _, [] => []
  | taken, assigned, name :: names =>
    let id := Name.globalId plan.package name.qualified
    if id ∈ taken then
      plan.entriesOf taken assigned names
    else
      plan.entryOf assigned name ::
        plan.entriesOf (id :: taken) ((name.path, id) :: assigned) names

/-- The names under which a unit is indexed when some identifiers are taken. -/
def namesGiven (plan : UnitPlan) (taken : List String) : List ElementName :=
  (Naming.withRootName plan.root (Name.freshGlobal taken plan.package plan.rootName).1).names

/-- The entries that a unit gets when some identifiers are taken. -/
def newEntries (plan : UnitPlan) (taken : List String) : List IndexEntry :=
  plan.entriesOf taken [] (plan.namesGiven taken)

variable {plan : UnitPlan} {taken others : List String}
  {assigned : List (ElementPath × String)} {names : List ElementName}

theorem mem_entriesOf {e : IndexEntry} (he : e ∈ plan.entriesOf taken assigned names) :
    e.globalId ∉ taken ∧ ∃ name ∈ names, ∃ known, e = plan.entryOf known name := by
  induction names generalizing taken assigned with
  | nil => exact absurd he List.not_mem_nil
  | cons name rest ih =>
      unfold entriesOf at he
      by_cases hid : Name.globalId plan.package name.qualified ∈ taken
      · rw [if_pos hid] at he
        obtain ⟨hfree, other, hmem, hentry⟩ := ih he
        exact ⟨hfree, other, List.mem_cons_of_mem _ hmem, hentry⟩
      · rw [if_neg hid] at he
        rcases List.mem_cons.mp he with rfl | he
        · exact ⟨hid, name, List.mem_cons_self, assigned, rfl⟩
        · obtain ⟨hfree, other, hmem, hentry⟩ := ih he
          exact ⟨fun h => hfree (List.mem_cons_of_mem _ h), other,
            List.mem_cons_of_mem _ hmem, hentry⟩

theorem mem_newEntries {e : IndexEntry} (he : e ∈ plan.newEntries taken) :
    e.location = plan.location ∧ e.package = plan.package ∧
      ∃ name ∈ plan.namesGiven taken, e.path = name.path ∧ e.kind = name.kind := by
  obtain ⟨-, name, hname, known, rfl⟩ := mem_entriesOf he
  exact ⟨rfl, rfl, name, hname, rfl, rfl⟩

theorem entriesOf_congr (h : ∀ id, id ∈ taken ↔ id ∈ others) :
    plan.entriesOf taken assigned names = plan.entriesOf others assigned names := by
  induction names generalizing taken others assigned with
  | nil => rfl
  | cons name rest ih =>
      unfold entriesOf
      by_cases hid : Name.globalId plan.package name.qualified ∈ taken
      · rw [if_pos hid, if_pos ((h _).mp hid)]
        exact ih h
      · rw [if_neg hid, if_neg (fun hother => hid ((h _).mpr hother))]
        congr 1
        refine ih fun id => ?_
        rw [List.mem_cons, List.mem_cons, h]

theorem namesGiven_congr (h : ∀ id, id ∈ taken ↔ id ∈ others) :
    plan.namesGiven taken = plan.namesGiven others := by
  unfold namesGiven Name.freshGlobal
  rw [Name.freshBy_congr (Name.globalId_injective plan.package) h]

theorem newEntries_congr (h : ∀ id, id ∈ taken ↔ id ∈ others) :
    plan.newEntries taken = plan.newEntries others := by
  unfold newEntries
  rw [namesGiven_congr h, entriesOf_congr h]

end UnitPlan

namespace Index
namespace Insertion

/-- What holds while a unit goes into an index. -/
structure Sound (plan : UnitPlan) (state : Insertion) : Prop where
  coherent : state.index.Coherent
  package_eq : ∀ e ∈ state.index.entries, e.location = plan.location →
    e.package = plan.package
  assigned_mem : ∀ path id, state.assigned.lookup path = some id →
    ∃ owner ∈ state.index.entries, owner.globalId = id ∧ owner.location = plan.location

variable {plan : UnitPlan} {state : Insertion}

theorem addName_of_mem {name : ElementName}
    (hid : Name.globalId plan.package name.qualified ∈ state.index.ids) :
    addName plan state name = state := by
  unfold addName
  exact if_pos (contains_iff.mpr hid)

theorem addName_of_notMem {name : ElementName}
    (hid : Name.globalId plan.package name.qualified ∉ state.index.ids) :
    addName plan state name =
      ⟨state.index.add (plan.entryOf state.assigned name),
        (name.path, Name.globalId plan.package name.qualified) :: state.assigned⟩ := by
  unfold addName
  exact if_neg fun h => hid (contains_iff.mp h)

theorem Sound.addName (h : state.Sound plan) (name : ElementName) :
    (state.addName plan name).Sound plan := by
  by_cases hid : Name.globalId plan.package name.qualified ∈ state.index.ids
  · rw [addName_of_mem hid]
    exact h
  · rw [addName_of_notMem hid]
    have howner : ∀ c, (plan.entryOf state.assigned name).container = some c →
        ∃ owner ∈ state.index.entries, owner.globalId = c ∧ owner.location = plan.location := by
      intro c hc
      obtain ⟨parent, -, hlookup⟩ := Option.bind_eq_some_iff.mp hc
      exact h.assigned_mem parent c hlookup
    refine ⟨h.coherent.add hid rfl h.package_eq howner, ?_, ?_⟩
    · intro e he hl
      rcases List.mem_append.mp he with he | he
      · exact h.package_eq e he hl
      · rw [List.mem_singleton.mp he]
        rfl
    · intro path id hlookup
      by_cases hpath : path = name.path
      · refine ⟨plan.entryOf state.assigned name, ?_, ?_, rfl⟩
        · exact List.mem_append_right _ (List.mem_singleton_self _)
        · simp only [List.lookup, hpath, beq_self_eq_true, Option.some.injEq] at hlookup
          exact hlookup
      · have hne : (path == name.path) = false := beq_false_of_ne hpath
        simp only [List.lookup, hne] at hlookup
        obtain ⟨owner, hmem, howns⟩ := h.assigned_mem path id hlookup
        exact ⟨owner, List.mem_append_left _ hmem, howns⟩

theorem Sound.foldl (h : state.Sound plan) (names : List ElementName) :
    (names.foldl (Insertion.addName plan) state).Sound plan := by
  induction names generalizing state with
  | nil => exact h
  | cons name rest ih => exact ih (h.addName name)

/-- The entries that go into the index are those of `entriesOf`. -/
theorem entries_foldl (names : List ElementName) {taken : List String}
    (htaken : ∀ id, id ∈ taken ↔ id ∈ state.index.ids) :
    (names.foldl (Insertion.addName plan) state).index.entries =
      state.index.entries ++ plan.entriesOf taken state.assigned names := by
  induction names generalizing state taken with
  | nil => exact (List.append_nil _).symm
  | cons name rest ih =>
      rw [List.foldl_cons]
      unfold UnitPlan.entriesOf
      by_cases hid : Name.globalId plan.package name.qualified ∈ state.index.ids
      · rw [addName_of_mem hid, if_pos ((htaken _).mpr hid)]
        exact ih htaken
      · rw [addName_of_notMem hid, if_neg fun h => hid ((htaken _).mp h)]
        have hnext : ∀ id, id ∈ Name.globalId plan.package name.qualified :: taken ↔
            id ∈ (state.index.add (plan.entryOf state.assigned name)).ids := by
          intro id
          rw [List.mem_cons, htaken, ids_add, List.mem_append, List.mem_singleton, or_comm]
          rfl
        refine (ih hnext).trans ?_
        show (state.index.entries ++ [_]) ++ _ = _
        rw [List.append_assoc]
        rfl

end Insertion

variable {index : Index}

theorem sound_start (h : index.Coherent) (plan : UnitPlan) :
    Insertion.Sound plan ⟨index.withoutLocation plan.location, []⟩ where
  coherent := h.withoutLocation plan.location
  package_eq := by
    intro e he hl
    rw [h.entries_withoutLocation, List.mem_filter] at he
    exact absurd hl (of_decide_eq_true he.2)
  assigned_mem := by
    intro path id hlookup
    simp at hlookup

theorem Coherent.insertUnit (h : index.Coherent) (plan : UnitPlan) :
    (index.insertUnit plan).2.Coherent :=
  ((sound_start h plan).foldl _).coherent

theorem Coherent.removeLocation (h : index.Coherent) (l : Location) :
    (index.removeLocation l).2.Coherent :=
  h.withoutLocation l

/-- Indexing a unit drops its old entries and puts its new ones behind all others. -/
theorem entries_insertUnit (h : index.Coherent) (plan : UnitPlan) :
    (index.insertUnit plan).2.entries =
      (index.entries.filter fun e => e.location ≠ plan.location) ++
        plan.newEntries ((index.entries.filter fun e => e.location ≠ plan.location).map
          (·.globalId)) := by
  have hkept := h.entries_withoutLocation plan.location
  rw [← hkept]
  exact Insertion.entries_foldl ((index.withoutLocation plan.location).finalNaming plan).names
    (fun _ => Iff.rfl)

theorem mem_entries_insertUnit (h : index.Coherent) {plan : UnitPlan} {e : IndexEntry} :
    e ∈ (index.insertUnit plan).2.entries ↔
      (e ∈ index.entries ∧ e.location ≠ plan.location) ∨
        e ∈ plan.newEntries ((index.entries.filter fun e => e.location ≠ plan.location).map
          (·.globalId)) := by
  rw [entries_insertUnit h, List.mem_append, List.mem_filter, decide_eq_true_iff]

/-! ## Indexes that are reached -/

/-- The indexes that inserting units of packages and removing locations lead to. -/
inductive Reached : Index → Prop
  | empty : Reached Index.empty
  | insertUnit {index : Index} (plan : UnitPlan) (h : Reached index)
      (hpackage : Name.IsPackageId plan.package) : Reached (index.insertUnit plan).2
  | removeLocation {index : Index} (l : Location) (h : Reached index) :
      Reached (index.removeLocation l).2

namespace Reached

theorem coherent (h : index.Reached) : index.Coherent := by
  induction h with
  | empty => exact coherent_empty
  | insertUnit plan _ _ ih => exact ih.insertUnit plan
  | removeLocation l _ ih => exact ih.removeLocation l

theorem isPackageId (h : index.Reached) :
    ∀ e ∈ index.entries, Name.IsPackageId e.package := by
  induction h with
  | empty => intro e he; exact absurd he List.not_mem_nil
  | insertUnit plan h hpackage ih =>
      intro e he
      rcases (mem_entries_insertUnit h.coherent).mp he with ⟨hold, -⟩ | hnew
      · exact ih e hold
      · rw [(UnitPlan.mem_newEntries hnew).2.1]
        exact hpackage
  | removeLocation l _ ih =>
      intro e he
      exact ih e (List.mem_of_mem_filter he)

end Reached

end Index
end ModelWorkspace
