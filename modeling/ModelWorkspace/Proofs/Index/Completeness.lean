import ModelWorkspace.Proofs.Index.Naming
import ModelWorkspace.Proofs.Name.Assignment
import ModelWorkspace.Proofs.Package.Declared

/-!
# No element is left out of the index

Identifiers in use belong to whole units: where the name of an element is in use, so is
that of its root, which is the first segment of it.  A unit that is indexed behind others
gets a root name that is free, so nothing below it is in use either.  And within the unit
all names are different.  So every element gets an entry (`map_newEntries`), as long as
the identifiers that are declared are plain.
-/

namespace ModelWorkspace

/-- Every identifier in use names something in a package in which the first segment of this
name is in use, too. -/
def Name.RootsTaken (taken : List String) : Prop :=
  ∀ id ∈ taken, ∃ p name, IsPackageId p ∧ id = globalId p name ∧
    globalId p (firstSegment name) ∈ taken

namespace UnitPlan

/-- The names of a unit are made of segments that can be told apart. -/
structure IsNameable (plan : UnitPlan) : Prop where
  root : plan.root.IsNameable
  rootName : Name.IsPlain plan.rootName
  package : Name.IsPackageId plan.package

variable {plan : UnitPlan} {taken : List String} {assigned : List (ElementPath × String)}
  {names : List ElementName} {name : ElementName} {e : IndexEntry}

/-! ## Names of one unit -/

theorem nodup_namesGiven (h : plan.IsNameable) (taken : List String) :
    ((plan.namesGiven taken).map (·.qualified)).Nodup :=
  Name.nodup_assign h.root ElementPath.root _ _

theorem firstSegment_of_mem_namesGiven (h : plan.IsNameable)
    (hname : name ∈ plan.namesGiven taken) :
    Name.firstSegment name.qualified =
      Name.freshBy (Name.globalId plan.package) taken plan.rootName :=
  (Name.isWithin_of_mem_assign hname).firstSegment_eq
    (h.rootName.freshBy (Name.globalId plan.package) taken).1

/-- No name of the unit is in use. -/
theorem notMem_of_rootsTaken (h : plan.IsNameable) (htaken : Name.RootsTaken taken)
    (hname : name ∈ plan.namesGiven taken) :
    Name.globalId plan.package name.qualified ∉ taken := by
  intro hmem
  obtain ⟨p, other, hp, hid, hroot⟩ := htaken _ hmem
  have hpackage : plan.package = p := Name.package_eq_of_globalId_eq h.package hp hid
  rw [← hpackage] at hid hroot
  rw [← Name.globalId_injective plan.package hid, firstSegment_of_mem_namesGiven h hname] at hroot
  exact Name.freshBy_notMem (Name.globalId_injective plan.package) taken plan.rootName hroot

/-- Different names that are free all get entries. -/
theorem map_entriesOf (hnodup : (names.map (·.qualified)).Nodup)
    (hfree : ∀ name ∈ names, Name.globalId plan.package name.qualified ∉ taken) :
    (plan.entriesOf taken assigned names).map (fun e => (e.path, e.kind)) =
      names.map fun name => (name.path, name.kind) := by
  induction names generalizing taken assigned with
  | nil => rfl
  | cons name rest ih =>
      rw [List.map_cons] at hnodup
      obtain ⟨hnew, hrest⟩ := List.nodup_cons.mp hnodup
      obtain ⟨hfirst, hothers⟩ := List.forall_mem_cons.mp hfree
      rw [entriesOf, if_neg hfirst, List.map_cons, List.map_cons, ih hrest]
      · rfl
      · intro other hother hmem
        rcases List.mem_cons.mp hmem with heq | hmem
        · refine hnew (List.mem_map.mpr ⟨other, hother, ?_⟩)
          exact Name.globalId_injective plan.package heq
        · exact hothers other hother hmem

/-- Every element of a unit gets an entry. -/
theorem map_newEntries (h : plan.IsNameable) (htaken : Name.RootsTaken taken) :
    (plan.newEntries taken).map (fun e => (e.path, e.kind)) =
      plan.root.descendants.map fun described => (described.1, described.2.kind) := by
  have hall : (plan.newEntries taken).map (fun e => (e.path, e.kind)) =
      (plan.namesGiven taken).map fun name => (name.path, name.kind) :=
    map_entriesOf (nodup_namesGiven h taken) fun name hname =>
      notMem_of_rootsTaken h htaken hname
  exact hall.trans (Name.map_assign plan.root ElementPath.root _ _)

/-! ## Whole units -/

/-- Where an element of a unit has an entry, the first segment of its name belongs to the
root. -/
theorem exists_root_of_mem_newEntries (h : plan.IsNameable) (he : e ∈ plan.newEntries taken) :
    ∃ name, e.globalId = Name.globalId plan.package name ∧
      ∃ root ∈ plan.newEntries taken,
        root.globalId = Name.globalId plan.package (Name.firstSegment name) := by
  obtain ⟨-, name, hname, known, rfl⟩ := mem_entriesOf he
  obtain ⟨root, hroot, -, hid⟩ := exists_root_newEntries plan taken
  refine ⟨name.qualified, rfl, root, hroot, ?_⟩
  rw [hid, firstSegment_of_mem_namesGiven h hname]

/-- Some entries are made up of all that some units were given. -/
def WholeUnits (entries : List IndexEntry) : Prop :=
  ∀ e ∈ entries, ∃ plan : UnitPlan, ∃ taken, plan.IsNameable ∧ e ∈ plan.newEntries taken ∧
    ∀ other ∈ plan.newEntries taken, other ∈ entries

theorem WholeUnits.rootsTaken {entries : List IndexEntry} (h : WholeUnits entries) :
    Name.RootsTaken (entries.map (·.globalId)) := by
  intro id hid
  obtain ⟨e, he, rfl⟩ := List.mem_map.mp hid
  obtain ⟨plan, taken, hplan, hmem, hall⟩ := h e he
  obtain ⟨name, hname, root, hroot, hfirst⟩ := exists_root_of_mem_newEntries hplan hmem
  refine ⟨plan.package, name, hplan.package, hname, ?_⟩
  rw [← hfirst]
  exact List.mem_map_of_mem (hall root hroot)

end UnitPlan

/-! ## Units of texts -/

/-- All identifiers that a text declares are valid. -/
def DeclaresIdentifiers (text : String) : Prop :=
  ∀ root ∈ (Document.ofText text).root, ∀ described ∈ root.descendants,
    ∀ id ∈ described.2.id, isIdentifier id = true

instance (text : String) : Decidable (DeclaresIdentifiers text) :=
  inferInstanceAs (Decidable (∀ root ∈ (Document.ofText text).root,
    ∀ described ∈ root.descendants, ∀ id ∈ described.2.id, isIdentifier id = true))

namespace SourceUnit

/-- The elements that the index should list for a unit, in the order they are written: all
of them if the root declares an identifier, otherwise none. -/
def listing (u : SourceUnit) : List (ElementPath × ElementKind) :=
  match u.document.root with
  | some root =>
    if root.id.isSome then
      root.descendants.map fun described => (described.1, described.2.kind)
    else []
  | none => []

variable {u : SourceUnit} {packages : PackageGraph} {text : String}

theorem listing_of_root {root : Element} (hroot : u.document.root = some root)
    (hid : root.id.isSome = true) :
    u.listing = root.descendants.map fun described => (described.1, described.2.kind) := by
  unfold listing
  rw [hroot]
  exact if_pos hid

theorem listing_of_anonymous (h : ∀ root, u.document.root = some root → root.id = none) :
    u.listing = [] := by
  unfold listing
  split
  · rename_i root hroot
    rw [h root hroot]
    rfl
  · rfl

theorem isNameable_of_plan? (hdocument : u.document = Document.ofText text)
    (hids : DeclaresIdentifiers text) (hpackages : packages.Declared) {plan : UnitPlan}
    (hplan : Build.plan? packages u = some plan) : plan.IsNameable := by
  obtain ⟨-, hroot, hrootName, hpackage⟩ := plan?_eq_some_iff.mp hplan
  rw [hdocument] at hroot
  have hplain : ∀ described ∈ plan.root.descendants, ∀ id, described.2.id = some id →
      Name.IsPlain id :=
    fun described hmem id hid => .of_isIdentifier (hids plan.root hroot described hmem id hid)
  refine ⟨?_, ?_, ?_⟩
  · exact (Document.isLowered_root hroot).isNameable hplain
  · have hself : (ElementPath.root, plan.root) ∈ plan.root.descendants :=
      Element.mem_descendantsFrom_iff.mpr (Or.inl rfl)
    exact hplain _ hself plan.rootName hrootName
  · obtain ⟨p, hp, hid⟩ := Option.map_eq_some_iff.mp hpackage
    rw [← hid]
    exact hpackages.isPackageId p (PackageGraph.mem_toList_of_packageFor? hp)

/-- Behind whole units a unit gets an entry for every element. -/
theorem map_entriesGiven (hdocument : u.document = Document.ofText text)
    (hids : DeclaresIdentifiers text) (hpackages : packages.Declared)
    (howned : (packages.packageFor? u.location).isSome = true) {taken : List String}
    (htaken : Name.RootsTaken taken) :
    (u.entriesGiven packages taken).map (fun e => (e.path, e.kind)) = u.listing := by
  obtain ⟨p, hp⟩ := Option.isSome_iff_exists.mp howned
  unfold entriesGiven
  cases hplan : Build.plan? packages u with
  | some plan =>
      obtain ⟨-, hroot, hid, -⟩ := plan?_eq_some_iff.mp hplan
      rw [listing_of_root hroot (Option.isSome_of_eq_some hid)]
      exact UnitPlan.map_newEntries (isNameable_of_plan? hdocument hids hpackages hplan) htaken
  | none =>
      -- a package owns the unit, so it is the root that declares nothing
      refine (listing_of_anonymous fun root hroot => ?_).symm
      rw [Option.eq_none_iff_forall_ne_some]
      intro id hid
      have hsome : Build.plan? packages u = some ⟨u.location, p.id, root, id⟩ :=
        plan?_eq_some_iff.mpr ⟨rfl, hroot, hid, by rw [hp]; rfl⟩
      rw [hplan] at hsome
      cases hsome

end SourceUnit
end ModelWorkspace
