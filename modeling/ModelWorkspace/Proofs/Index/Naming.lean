import ModelWorkspace.Proofs.Index.Batch

/-!
# Who gets which name

The root of a unit always has an entry, and its name is the one it declares unless that
is taken in its package (`exists_root_newEntries`).  A unit gets the same entries as long as
no more identifiers are taken but those that it does not get (`newEntries_of_subset`); so if
its names are all free, it is named as if there were no other units.

Two lists of entries give the same names when the same identifiers lead to the same
elements (`SamePlaces`).  For coherent indexes this is what looking up identifiers sees
(`sameElements_iff`).
-/

namespace ModelWorkspace

/-- The element that an entry leads to. -/
def IndexEntry.place (e : IndexEntry) : Location × ElementPath × ElementKind :=
  (e.location, e.path, e.kind)

/-- The identifiers that some entries give, and where they lead. -/
def namedPlaces (entries : List IndexEntry) :
    List (String × Location × ElementPath × ElementKind) :=
  entries.map fun e => (e.globalId, e.place)

/-- The same identifiers lead to the same elements. -/
def SamePlaces (xs ys : List IndexEntry) : Prop :=
  ∀ named, named ∈ namedPlaces xs ↔ named ∈ namedPlaces ys

variable {xs ys : List IndexEntry} {named : String × Location × ElementPath × ElementKind}

namespace SamePlaces

theorem refl (xs : List IndexEntry) : SamePlaces xs xs :=
  fun _ => Iff.rfl

theorem symm (h : SamePlaces xs ys) : SamePlaces ys xs :=
  fun named => (h named).symm

theorem trans {zs : List IndexEntry} (h : SamePlaces xs ys) (h' : SamePlaces ys zs) :
    SamePlaces xs zs :=
  fun named => (h named).trans (h' named)

theorem of_eq (h : xs = ys) : SamePlaces xs ys := by
  rw [h]
  exact refl ys

end SamePlaces

theorem mem_namedPlaces_of_mem {e : IndexEntry} (he : e ∈ xs) :
    (e.globalId, e.place) ∈ namedPlaces xs :=
  List.mem_map.mpr ⟨e, he, rfl⟩

/-- Leaving out units leaves out what leads to them. -/
theorem mem_namedPlaces_filter (p : Location → Bool) :
    named ∈ namedPlaces (xs.filter fun e => p e.location) ↔
      named ∈ namedPlaces xs ∧ p named.2.1 = true := by
  unfold namedPlaces
  rw [List.mem_map, List.mem_map]
  constructor
  · rintro ⟨e, he, rfl⟩
    obtain ⟨hmem, hp⟩ := List.mem_filter.mp he
    exact ⟨⟨e, hmem, rfl⟩, hp⟩
  · rintro ⟨⟨e, he, rfl⟩, hp⟩
    exact ⟨e, List.mem_filter.mpr ⟨he, hp⟩, rfl⟩

theorem SamePlaces.filter (h : SamePlaces xs ys) (p : Location → Bool) :
    SamePlaces (xs.filter fun e => p e.location) (ys.filter fun e => p e.location) := by
  intro named
  rw [mem_namedPlaces_filter, mem_namedPlaces_filter, h]

/-- The same identifiers are in use. -/
theorem SamePlaces.mem_ids (h : SamePlaces xs ys) {id : String}
    (hid : id ∈ xs.map (·.globalId)) : id ∈ ys.map (·.globalId) := by
  obtain ⟨e, he, rfl⟩ := List.mem_map.mp hid
  obtain ⟨other, hother, heq⟩ := List.mem_map.mp ((h _).mp (mem_namedPlaces_of_mem he))
  exact List.mem_map.mpr ⟨other, hother, (Prod.mk.inj heq).1⟩

namespace Index

variable {i j : Index}

/-- The same identifiers are known, and lead to the same elements. -/
def SameElements (i j : Index) : Prop :=
  ∀ id, (i.get? id).map (·.place) = (j.get? id).map (·.place)

/-- The identifiers of the units that come before a location. -/
def idsBefore (index : Index) (l : Location) : List String :=
  (index.entries.filter fun e => e.location < l).map (·.globalId)

theorem Coherent.get?_place_iff (h : i.Coherent) {id : String}
    {place : Location × ElementPath × ElementKind} :
    (i.get? id).map (·.place) = some place ↔ (id, place) ∈ namedPlaces i.entries := by
  rw [Option.map_eq_some_iff]
  unfold namedPlaces
  rw [List.mem_map]
  refine exists_congr fun e => ?_
  rw [h.get?_eq_some_iff, and_assoc]
  exact and_congr_right fun _ => Prod.mk_inj.symm

theorem sameElements_iff (hi : i.Coherent) (hj : j.Coherent) :
    i.SameElements j ↔ SamePlaces i.entries j.entries := by
  constructor
  · rintro h ⟨id, place⟩
    rw [← hi.get?_place_iff, ← hj.get?_place_iff, h]
  · intro h id
    refine Option.ext fun place => ?_
    rw [hi.get?_place_iff, hj.get?_place_iff, h]

end Index

/-! ## One unit -/

namespace UnitPlan

variable {plan : UnitPlan} {taken more : List String}

/-- The root comes first, with a name that is free. -/
theorem newEntries_eq_cons (plan : UnitPlan) (taken : List String) :
    ∃ rest, plan.newEntries taken = plan.entryOf []
      ⟨ElementPath.root, Name.freshBy (Name.globalId plan.package) taken plan.rootName,
        Name.freshBy (Name.globalId plan.package) taken plan.rootName, plan.root.kind⟩ :: rest := by
  let rootName := Name.freshBy (Name.globalId plan.package) taken plan.rootName
  have hfree : Name.globalId plan.package rootName ∉ taken :=
    Name.freshBy_notMem (Name.globalId_injective plan.package) taken plan.rootName
  have hnames : plan.namesGiven taken =
      ⟨ElementPath.root, rootName, rootName, plan.root.kind⟩ ::
        Name.assignAll ElementPath.root rootName (Name.childNames plan.root.children)
          plan.root.children := by
    show Name.assign ElementPath.root rootName rootName plan.root = _
    cases plan.root
    rw [Name.assign]
  unfold newEntries
  rw [hnames, entriesOf, if_neg hfree]
  exact ⟨_, rfl⟩

theorem exists_root_newEntries (plan : UnitPlan) (taken : List String) :
    ∃ e ∈ plan.newEntries taken, e.path = ElementPath.root ∧
      e.globalId = Name.globalId plan.package
        (Name.freshBy (Name.globalId plan.package) taken plan.rootName) := by
  obtain ⟨rest, hentries⟩ := plan.newEntries_eq_cons taken
  rw [hentries]
  exact ⟨_, List.mem_cons_self, rfl, rfl⟩

theorem entriesOf_append {own : List String} {assigned : List (ElementPath × String)}
    {names : List ElementName}
    (h : ∀ e ∈ plan.entriesOf own assigned names, e.globalId ∉ taken) :
    plan.entriesOf (own ++ taken) assigned names = plan.entriesOf own assigned names := by
  induction names generalizing own assigned with
  | nil => rfl
  | cons name rest ih =>
      unfold entriesOf at h ⊢
      by_cases hown : Name.globalId plan.package name.qualified ∈ own
      · rw [if_pos hown] at h
        rw [if_pos hown, if_pos (List.mem_append_left taken hown)]
        exact ih h
      · rw [if_neg hown] at h
        obtain ⟨hhead, htail⟩ := List.forall_mem_cons.mp h
        have hfree : Name.globalId plan.package name.qualified ∉ own ++ taken :=
          fun hmem => (List.mem_append.mp hmem).elim hown hhead
        rw [if_neg hown, if_neg hfree]
        congr 1
        exact ih htail

/-- A unit gets the same entries while only identifiers are taken that it does not get. -/
theorem newEntries_of_subset (hsub : taken ⊆ more)
    (hfree : ∀ e ∈ plan.newEntries taken, e.globalId ∉ more) :
    plan.newEntries more = plan.newEntries taken := by
  obtain ⟨e, he, -, hid⟩ := plan.exists_root_newEntries taken
  have hroot := hfree e he
  rw [hid] at hroot
  have hnames : plan.namesGiven more = plan.namesGiven taken := by
    unfold namesGiven Name.freshGlobal
    rw [Name.freshBy_of_subset (Name.globalId_injective plan.package) hsub hroot]
  have hmore : ∀ id, id ∈ more ↔ id ∈ taken ++ more := by
    intro id
    rw [List.mem_append]
    exact ⟨Or.inr, fun h => h.elim (fun hid => hsub hid) fun hid => hid⟩
  unfold newEntries
  rw [hnames, entriesOf_congr hmore]
  exact entriesOf_append hfree

end UnitPlan

namespace SourceUnit

variable {u : SourceUnit} {packages : PackageGraph} {taken others : List String}

theorem entriesGiven_congr (h : ∀ id, id ∈ taken ↔ id ∈ others) :
    u.entriesGiven packages taken = u.entriesGiven packages others := by
  unfold entriesGiven
  split
  · exact UnitPlan.newEntries_congr h
  · rfl

theorem entriesGiven_of_subset (hsub : taken ⊆ others)
    (hfree : ∀ e ∈ u.entriesGiven packages taken, e.globalId ∉ others) :
    u.entriesGiven packages others = u.entriesGiven packages taken := by
  unfold entriesGiven at hfree ⊢
  split at hfree
  · exact UnitPlan.newEntries_of_subset hsub hfree
  · rfl

/-- A root that declares a name has an entry: under this name if that is free. -/
theorem exists_root_entriesGiven {root : Element} {id : String} {p : Package}
    (hroot : u.document.root = some root) (hid : root.id = some id)
    (hp : packages.packageFor? u.location = some p) (taken : List String) :
    ∃ e ∈ u.entriesGiven packages taken, e.location = u.location ∧
      e.path = ElementPath.root ∧
      (Name.globalId p.id id ∉ taken → e.globalId = Name.globalId p.id id) := by
  have hplan : Build.plan? packages u = some ⟨u.location, p.id, root, id⟩ :=
    plan?_eq_some_iff.mpr ⟨rfl, hroot, hid, by rw [hp]; rfl⟩
  unfold entriesGiven
  rw [hplan]
  obtain ⟨e, he, hpath, hname⟩ := UnitPlan.exists_root_newEntries _ taken
  refine ⟨e, he, (UnitPlan.mem_newEntries he).1, hpath, fun hfree => ?_⟩
  rw [hname, Name.freshBy_eq_self hfree]

end SourceUnit
end ModelWorkspace
