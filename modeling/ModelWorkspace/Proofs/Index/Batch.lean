import ModelWorkspace.Proofs.Index.Insert
import ModelWorkspace.Proofs.Element.Lowering
import ModelWorkspace.Proofs.Workspace.Lifecycle

/-!
# Indexing several units in a row

Units whose entries have been taken out of the index are indexed one behind the other.
The entries that a unit gets then depend on the identifiers in use before it, and nothing
else (`entries_insertAll`); if the units stand in the order of their locations, these are
the identifiers of units that come first (`filter_batchEntries`).
-/

namespace ModelWorkspace
namespace UnitPlan

/-- The entries that some units get one behind the other when some identifiers are
taken. -/
def batchEntries (taken : List String) : List UnitPlan → List IndexEntry
  | [] => []
  | plan :: plans =>
    let new := plan.newEntries taken
    new ++ batchEntries (taken ++ new.map (·.globalId)) plans

variable {plan : UnitPlan} {plans : List UnitPlan} {taken : List String}

theorem mem_batchEntries {e : IndexEntry} (he : e ∈ batchEntries taken plans) :
    ∃ plan ∈ plans, ∃ given, e ∈ plan.newEntries given := by
  induction plans generalizing taken with
  | nil => exact absurd he List.not_mem_nil
  | cons plan rest ih =>
      rcases List.mem_append.mp he with he | he
      · exact ⟨plan, List.mem_cons_self, taken, he⟩
      · obtain ⟨other, hother, given, hmem⟩ := ih he
        exact ⟨other, List.mem_cons_of_mem _ hother, given, hmem⟩

theorem filter_newEntries_of_ne {l : Location} (h : plan.location ≠ l) :
    (plan.newEntries taken).filter (fun e => e.location = l) = [] := by
  rw [List.filter_eq_nil_iff]
  intro e he
  rw [(mem_newEntries he).1]
  simpa using h

/-- In a batch that is in order, a unit is named behind the units that come first. -/
theorem filter_batchEntries (hsorted : plans.Pairwise fun a b => a.location < b.location)
    (hplan : plan ∈ plans) :
    (batchEntries taken plans).filter (fun e => e.location = plan.location) =
      plan.newEntries (taken ++ ((batchEntries taken plans).filter fun e =>
        e.location < plan.location).map (·.globalId)) := by
  induction plans generalizing taken with
  | nil => exact absurd hplan List.not_mem_nil
  | cons first rest ih =>
      obtain ⟨habove, hrest⟩ := List.pairwise_cons.mp hsorted
      unfold batchEntries
      dsimp only
      rw [List.filter_append, List.filter_append]
      rcases List.mem_cons.mp hplan with rfl | hplan
      · -- the entries of all others stand at locations that come later
        have hlater : ∀ e ∈ batchEntries
            (taken ++ (plan.newEntries taken).map (·.globalId)) rest,
            plan.location < e.location := by
          intro e he
          obtain ⟨other, hother, given, hmem⟩ := mem_batchEntries he
          rw [(mem_newEntries hmem).1]
          exact habove other hother
        have hown : ∀ e ∈ plan.newEntries taken, e.location = plan.location :=
          fun e he => (mem_newEntries he).1
        rw [List.filter_eq_self.mpr fun e he => decide_eq_true (hown e he),
          List.filter_eq_nil_iff.mpr, List.filter_eq_nil_iff.mpr, List.filter_eq_nil_iff.mpr]
        · simp
        · intro e he hlt
          exact Location.lt_irrefl _
            (Location.lt_trans (hlater e he) (of_decide_eq_true hlt))
        · intro e he hlt
          have hself := of_decide_eq_true hlt
          rw [hown e he] at hself
          exact Location.lt_irrefl _ hself
        · intro e he heq
          have hself := hlater e he
          rw [of_decide_eq_true heq] at hself
          exact Location.lt_irrefl _ hself
      · have hlt := habove plan hplan
        have hne : first.location ≠ plan.location := by
          intro heq
          rw [heq] at hlt
          exact Location.lt_irrefl _ hlt
        have hall : (first.newEntries taken).filter (fun e => e.location < plan.location) =
            first.newEntries taken := by
          rw [List.filter_eq_self]
          intro e he
          rw [(mem_newEntries he).1]
          exact decide_eq_true hlt
        rw [filter_newEntries_of_ne hne, hall, List.nil_append, ih hrest hplan,
          List.map_append, List.append_assoc]

end UnitPlan

namespace Index

variable {index : Index}

/-- The index without the entries of some units. -/
def clearAll (index : Index) (ls : List Location) : Index :=
  ls.foldl withoutLocation index

/-- The index with some units indexed one behind the other. -/
def insertAll (index : Index) (plans : List UnitPlan) : Index :=
  plans.foldl (fun index plan => (index.insertUnit plan).2) index

theorem entries_clearAll (h : index.Coherent) (ls : List Location) :
    (index.clearAll ls).Coherent ∧
      (index.clearAll ls).entries = index.entries.filter fun e => e.location ∉ ls := by
  induction ls generalizing index with
  | nil => exact ⟨h, by simp [clearAll]⟩
  | cons l rest ih =>
      obtain ⟨hcoherent, hentries⟩ := ih (h.withoutLocation l)
      refine ⟨hcoherent, hentries.trans ?_⟩
      rw [h.entries_withoutLocation, List.filter_filter]
      refine List.filter_congr fun e _ => ?_
      simp [not_or, Bool.and_comm]

theorem Coherent.insertAll (h : index.Coherent) (plans : List UnitPlan) :
    (index.insertAll plans).Coherent := by
  induction plans generalizing index with
  | nil => exact h
  | cons plan rest ih => exact ih (h.insertUnit plan)

/-- Units without entries are indexed behind everything that is there. -/
theorem entries_insertAll (h : index.Coherent) {plans : List UnitPlan}
    (hsorted : plans.Pairwise fun a b => a.location < b.location)
    (hfree : ∀ plan ∈ plans, ∀ e ∈ index.entries, e.location ≠ plan.location) :
    (index.insertAll plans).entries =
      index.entries ++ UnitPlan.batchEntries index.ids plans := by
  induction plans generalizing index with
  | nil => exact (List.append_nil _).symm
  | cons plan rest ih =>
      obtain ⟨habove, hrest⟩ := List.pairwise_cons.mp hsorted
      have hkept : index.entries.filter (fun e => e.location ≠ plan.location) =
          index.entries := by
        rw [List.filter_eq_self]
        exact fun e he => decide_eq_true (hfree plan List.mem_cons_self e he)
      have hstep : (index.insertUnit plan).2.entries =
          index.entries ++ plan.newEntries index.ids := by
        rw [entries_insertUnit h, hkept]
        rfl
      have hids : (index.insertUnit plan).2.ids =
          index.ids ++ (plan.newEntries index.ids).map (·.globalId) := by
        unfold ids
        rw [hstep, List.map_append]
        rfl
      -- the first unit takes no entries from those that are still to come
      have hlater : ∀ other ∈ rest, ∀ e ∈ (index.insertUnit plan).2.entries,
          e.location ≠ other.location := by
        intro other hother e he
        rw [hstep, List.mem_append] at he
        rcases he with he | he
        · exact hfree other (List.mem_cons_of_mem _ hother) e he
        · intro heq
          have hlt := habove other hother
          rw [← heq, (UnitPlan.mem_newEntries he).1] at hlt
          exact Location.lt_irrefl _ hlt
      refine (ih (h.insertUnit plan) hrest hlater).trans ?_
      rw [hstep, hids, List.append_assoc]
      rfl

end Index

/-! ## The entries of a unit -/

namespace SourceUnit

/-- The entries that a unit gets when some identifiers are taken. -/
def entriesGiven (u : SourceUnit) (packages : PackageGraph) (taken : List String) :
    List IndexEntry :=
  match Build.plan? packages u with
  | some plan => plan.newEntries taken
  | none => []

variable {u : SourceUnit} {packages : PackageGraph}

/-- A unit has a plan if its root declares an identifier and a package owns it. -/
theorem plan?_eq_some_iff {plan : UnitPlan} :
    Build.plan? packages u = some plan ↔
      plan.location = u.location ∧ u.document.root = some plan.root ∧
        plan.root.id = some plan.rootName ∧
        (packages.packageFor? u.location).map (·.id) = some plan.package := by
  unfold Build.plan? UnitPlan.ofRoot
  constructor
  · intro h
    obtain ⟨root, hroot, h⟩ := Option.bind_eq_some_iff.mp h
    obtain ⟨package, hpackage, h⟩ := Option.bind_eq_some_iff.mp h
    split at h
    · rename_i id hid
      cases h
      exact ⟨rfl, hroot, hid, by rw [hpackage]; rfl⟩
    · cases h
  · rintro ⟨hlocation, hroot, hid, hpackage⟩
    obtain ⟨location, package, root, rootName⟩ := plan
    obtain ⟨p, hp, rfl⟩ := Option.map_eq_some_iff.mp hpackage
    cases hlocation
    rw [hroot, hp]
    dsimp only [Option.bind_eq_bind, Option.bind_some]
    dsimp only at hid
    rw [hid]
    rfl

theorem plan?_eq_some {plan : UnitPlan} (h : Build.plan? packages u = some plan) :
    plan.location = u.location ∧ u.document.root = some plan.root ∧
      (packages.packageFor? u.location).map (·.id) = some plan.package := by
  obtain ⟨hlocation, hroot, -, hpackage⟩ := plan?_eq_some_iff.mp h
  exact ⟨hlocation, hroot, hpackage⟩

/-- An entry of a unit names an element of it, and the package that owns it. -/
theorem mem_entriesGiven {text : String} (hdocument : u.document = Document.ofText text)
    {taken : List String} {e : IndexEntry} (he : e ∈ u.entriesGiven packages taken) :
    e.location = u.location ∧
      (packages.packageFor? u.location).map (·.id) = some e.package ∧
      ∃ root element, u.document.root = some root ∧ root.walk e.path = some element ∧
        element.kind = e.kind := by
  unfold entriesGiven at he
  split at he
  · rename_i plan hplan
    obtain ⟨hlocation, hroot, hpackage⟩ := plan?_eq_some hplan
    obtain ⟨hentry, hown, name, hname, hpath, hkind⟩ := UnitPlan.mem_newEntries he
    have hdistinct : plan.root.HasDistinctFeatures := by
      rw [hdocument] at hroot
      exact (Document.isLowered_root hroot).distinct
    obtain ⟨element, hwalk, helement⟩ := Naming.exists_walk hdistinct hname
    refine ⟨hentry.trans hlocation, by rw [hown]; exact hpackage, plan.root, element, hroot,
      ?_, ?_⟩
    · rw [hpath]
      exact hwalk
    · rw [hkind]
      exact helement
  · exact absurd he List.not_mem_nil

end SourceUnit
end ModelWorkspace
