import ModelWorkspace.Proofs.Index.Completeness
import ModelWorkspace.Proofs.Name.Containment

/-!
# Entries lie within entries

If every name of a unit gets an entry, then each entry but that of the root names the entry
of its container, which was added before: its name is that of the container with its own name
behind a dot (`layered_newEntries`).  The number of dots is the level of its kind.

In a layered index names therefore tell what contains what.  The entry of a name is found
under it in its unit (`findLocal_eq_some_iff`), and the members of an element are the
elements whose names lie one dot below (`mem_membersOf`).
-/

namespace ModelWorkspace

/-- An entry is that of a member of another entry. -/
structure IndexEntry.IsIn (e owner : IndexEntry) : Prop where
  container_eq : e.container = some owner.globalId
  location_eq : e.location = owner.location
  localName_eq : e.localName = Name.nested owner.localName e.localId
  dot_notMem : '.' ∉ e.localId.toList

/-- Entries have as many dots in their names as their kinds lie below the root, and lie
within entries among them. -/
structure Layered (entries : List IndexEntry) : Prop where
  count_dot : ∀ e ∈ entries, e.localName.toList.count '.' = e.kind.level
  owner : ∀ e ∈ entries, e.kind.level = 0 ∨ ∃ owner ∈ entries, e.IsIn owner

namespace UnitPlan

variable {plan : UnitPlan} {taken : List String} {assigned : List (ElementPath × String)}
  {names before after : List ElementName} {name container : ElementName} {e : IndexEntry}

/-! ## Units all of whose names get entries -/

/-- The identifiers that names have got, the last one first. -/
def assignedTo (plan : UnitPlan) (names : List ElementName) : List (ElementPath × String) :=
  names.reverse.map fun name => (name.path, Name.globalId plan.package name.qualified)

theorem length_entriesOf_le (plan : UnitPlan) (taken : List String)
    (assigned : List (ElementPath × String)) (names : List ElementName) :
    (plan.entriesOf taken assigned names).length ≤ names.length := by
  induction names generalizing taken assigned with
  | nil => exact Nat.le_refl _
  | cons name rest ih =>
      unfold entriesOf
      dsimp only
      split
      · exact (ih taken assigned).trans (Nat.le_succ _)
      · exact Nat.succ_le_succ (ih _ _)

/-- Where no name is left out, none is in use. -/
theorem entriesOf_cons_of_length
    (h : (plan.entriesOf taken assigned (name :: names)).length = (name :: names).length) :
    plan.entriesOf taken assigned (name :: names) = plan.entryOf assigned name ::
        plan.entriesOf (Name.globalId plan.package name.qualified :: taken)
          ((name.path, Name.globalId plan.package name.qualified) :: assigned) names ∧
      (plan.entriesOf (Name.globalId plan.package name.qualified :: taken)
          ((name.path, Name.globalId plan.package name.qualified) :: assigned) names).length =
        names.length := by
  rw [entriesOf] at h ⊢
  by_cases hid : Name.globalId plan.package name.qualified ∈ taken
  · rw [if_pos hid, List.length_cons] at h
    have := plan.length_entriesOf_le taken assigned names
    omega
  · rw [if_neg hid, List.length_cons, List.length_cons] at h
    rw [if_neg hid]
    exact ⟨rfl, Nat.succ.inj h⟩

/-- An entry knows the identifiers of all elements before it. -/
theorem exists_split_of_mem_entriesOf
    (h : (plan.entriesOf taken assigned names).length = names.length)
    (he : e ∈ plan.entriesOf taken assigned names) :
    ∃ before name after, names = before ++ name :: after ∧
      e = plan.entryOf (plan.assignedTo before ++ assigned) name := by
  induction names generalizing taken assigned with
  | nil => exact absurd he List.not_mem_nil
  | cons name rest ih =>
      obtain ⟨hcons, hlength⟩ := entriesOf_cons_of_length h
      rw [hcons] at he
      rcases List.mem_cons.mp he with rfl | he
      · exact ⟨[], name, rest, rfl, rfl⟩
      · obtain ⟨before, other, after, hnames, hentry⟩ := ih hlength he
        refine ⟨name :: before, other, after, by rw [hnames]; rfl, ?_⟩
        rw [hentry]
        unfold assignedTo
        rw [List.reverse_cons, List.map_append, List.append_assoc]
        rfl

theorem exists_entryOf_mem_entriesOf
    (h : (plan.entriesOf taken assigned names).length = names.length) (hname : name ∈ names) :
    ∃ known, plan.entryOf known name ∈ plan.entriesOf taken assigned names := by
  induction names generalizing taken assigned with
  | nil => exact absurd hname List.not_mem_nil
  | cons first rest ih =>
      obtain ⟨hcons, hlength⟩ := entriesOf_cons_of_length h
      rw [hcons]
      rcases List.mem_cons.mp hname with rfl | hname
      · exact ⟨assigned, List.mem_cons_self⟩
      · obtain ⟨known, hmem⟩ := ih hlength hname
        exact ⟨known, List.mem_cons_of_mem _ hmem⟩

/-- A name that has got an identifier is found by its path. -/
theorem lookup_assignedTo (hpaths : (before.map (·.path)).Nodup) (h : container ∈ before) :
    (plan.assignedTo before).lookup container.path =
      some (Name.globalId plan.package container.qualified) := by
  have hreversed : (before.reverse.map (·.path)).Nodup := by
    rw [List.map_reverse, List.nodup_reverse]
    exact hpaths
  have hmem := List.mem_reverse.mpr h
  unfold assignedTo
  generalize before.reverse = names at hreversed hmem ⊢
  induction names with
  | nil => exact absurd hmem List.not_mem_nil
  | cons name rest ih =>
      rw [List.map_cons] at hreversed
      obtain ⟨hnew, hrest⟩ := List.nodup_cons.mp hreversed
      rcases List.mem_cons.mp hmem with rfl | hmem
      · rw [List.map_cons, List.lookup_cons_self]
      · have hne : container.path ≠ name.path := fun heq =>
          hnew (heq ▸ List.mem_map_of_mem hmem)
        rw [List.map_cons, List.lookup_cons, beq_false_of_ne hne]
        exact ih hrest hmem

/-- The name of an entry has as many dots as its kind lies below the root. -/
theorem count_dot_of_mem_newEntries (h : plan.IsNameable) (htyped : plan.root.IsTyped)
    (hroot : plan.root.kind.isRoot = true) (he : e ∈ plan.newEntries taken) :
    e.localName.toList.count '.' = e.kind.level := by
  have hplain := h.rootName.freshBy (Name.globalId plan.package) taken
  obtain ⟨-, name, hname, known, rfl⟩ := mem_entriesOf he
  have hcount := Name.count_dot_of_mem_assign h.root htyped hname
  have hnone : (Name.freshGlobal taken plan.package plan.rootName).1.toList.count '.' = 0 :=
    List.count_eq_zero.mpr hplain.1
  rw [hnone, ElementKind.level_of_isRoot hroot, Nat.zero_add, Nat.add_zero] at hcount
  exact hcount

/-- The entries of a unit all of whose names get entries are layered. -/
theorem layered_newEntries (h : plan.IsNameable) (hfeatures : plan.root.HasDistinctFeatures)
    (htyped : plan.root.IsTyped) (hroot : plan.root.kind.isRoot = true)
    (hlength : (plan.newEntries taken).length = (plan.namesGiven taken).length) :
    Layered (plan.newEntries taken) := by
  let rootName := Name.freshBy (Name.globalId plan.package) taken plan.rootName
  have hassign : plan.namesGiven taken =
      Name.assign ElementPath.root rootName rootName plan.root := rfl
  constructor
  · intro e he
    exact count_dot_of_mem_newEntries h htyped hroot he
  · intro e he
    obtain ⟨before, name, after, hnames, rfl⟩ := exists_split_of_mem_entriesOf hlength he
    have hname : name ∈ plan.namesGiven taken := by
      rw [hnames]
      exact List.mem_append_right _ List.mem_cons_self
    rcases Name.exists_container_of_mem_assign h.root hname with rfl | ⟨container, hmem, hin⟩
    · exact Or.inl (ElementKind.level_of_isRoot hroot)
    · have hbefore := Name.mem_before_of_isIn hfeatures (hassign.symm.trans hnames) hmem hin
      obtain ⟨known, howner⟩ := exists_entryOf_mem_entriesOf hlength hmem
      refine Or.inr ⟨plan.entryOf known container, howner, ?_, rfl, hin.qualified_eq,
        hin.dot_notMem⟩
      -- the container has got its identifier before, and its path is listed once
      have hpaths : (before.map (·.path)).Nodup := by
        have hall := Name.nodup_path_assign hfeatures ElementPath.root rootName rootName
        rw [← hassign, hnames, List.map_append] at hall
        exact hall.of_append_left
      show name.path.parent?.bind _ = _
      rw [hin.parent?_eq, Option.bind_some, List.append_nil]
      exact lookup_assignedTo hpaths hbefore

end UnitPlan

/-! ## Names in a layered index -/

namespace Index

variable {index : Index} {e owner : IndexEntry} {l : Location} {name : String}

namespace Coherent

/-- A name belongs to one entry of a unit. -/
theorem eq_of_localName_eq (h : index.Coherent) {other : IndexEntry} (he : e ∈ index.entries)
    (hother : other ∈ index.entries) (hl : e.location = other.location)
    (hname : e.localName = other.localName) : e = other := by
  refine h.entry_unique he hother ?_
  rw [h.globalId_eq e he, h.globalId_eq other hother, h.package_eq e he other hother hl, hname]

theorem findLocal_eq_some_iff (h : index.Coherent) :
    index.findLocal l name = some e ↔
      e ∈ index.entries ∧ e.location = l ∧ e.localName = name := by
  unfold findLocal
  rw [h.entriesIn_eq]
  constructor
  · intro hfound
    have hmem := List.mem_filter.mp (List.mem_of_find?_eq_some hfound)
    have hname := List.find?_some hfound
    exact ⟨hmem.1, of_decide_eq_true hmem.2, beq_iff_eq.mp hname⟩
  · rintro ⟨hmem, rfl, rfl⟩
    cases hfound : (index.entries.filter fun other => other.location = e.location).find?
        (·.localName == e.localName) with
    | none =>
        have hnone := List.find?_eq_none.mp hfound e
          (List.mem_filter.mpr ⟨hmem, decide_eq_true rfl⟩)
        simp at hnone
    | some other =>
        obtain ⟨hother, hl⟩ := List.mem_filter.mp (List.mem_of_find?_eq_some hfound)
        have hname := List.find?_some hfound
        rw [h.eq_of_localName_eq hother hmem (of_decide_eq_true hl) (beq_iff_eq.mp hname)]

theorem eq_of_isIn (h : index.Coherent) {other : IndexEntry} (howner : owner ∈ index.entries)
    (hother : other ∈ index.entries) (hin : e.IsIn owner)
    (hcontainer : e.container = some other.globalId) : owner = other := by
  refine h.entry_unique howner hother (Option.some.inj ?_)
  rw [← hin.container_eq, hcontainer]

/-- The members of an entry lie within it. -/
theorem mem_membersOf (h : index.Coherent) (hlayered : Layered index.entries)
    (howner : owner ∈ index.entries) (he : e ∈ index.membersOf owner.globalId)
    (hlevel : e.kind.level ≠ 0) : e ∈ index.entries ∧ e.IsIn owner := by
  rw [h.membersOf_eq, List.mem_filter, decide_eq_true_iff] at he
  obtain ⟨hmem, hcontainer⟩ := he
  obtain ⟨other, hother, hin⟩ := (hlayered.owner e hmem).resolve_left hlevel
  rw [h.eq_of_isIn hother howner hin hcontainer] at hin
  exact ⟨hmem, hin⟩

end Coherent

end Index
end ModelWorkspace
