import ModelWorkspace.Proofs.Index.Members

/-!
# A tree under another name

The root of a unit gets a name that is free in its package, so one tree may be indexed under
two names.  Its elements then differ in nothing but this name: what stands behind it depends
on the path alone (`map_assign_append`), so elements at one path have names with a common
end (`NamedAs.exists_suffix`).
-/

namespace ModelWorkspace

/-! ## Names of one tree -/

namespace Name

/-- The names of a tree are the name of its root with what the tree puts behind it. -/
theorem map_assign_append (e : Element) (path : ElementPath) (own other qualified : String) :
    (assign path own qualified e).map (fun name => (name.path, name.qualified)) =
      (assign path other "" e).map fun name => (name.path, qualified ++ name.qualified) := by
  induction e using Element.nested_induction generalizing path own other qualified with
  | step e ih =>
      rw [assign_eq, assign_eq, List.map_cons, List.map_cons, List.map_flatMap, List.map_flatMap]
      congr 1
      · rw [String.append_empty]
      · refine List.flatMap_congr fun x hx => ?_
        obtain ⟨c, hc, hchild⟩ := List.mem_flatMap.mp (List.of_mem_zip hx).1
        have hnested := ih c hc x.1.2 (step_of_mem_stepsOf hchild).2
          (path.child x.1.1.feature x.1.1.index) x.2 ""
        -- both sides put a name in front of what the nested element puts behind its own
        have hbelow := congrArg (List.map fun place => (place.1, qualified ++ place.2))
          (hnested (nested "" x.2))
        rw [List.map_map, List.map_map] at hbelow
        refine (hnested (nested qualified x.2)).trans (Eq.trans ?_ hbelow.symm)
        refine List.map_congr_left fun name _ => Prod.ext rfl ?_
        show nested qualified x.2 ++ name.qualified =
          qualified ++ (nested "" x.2 ++ name.qualified)
        unfold nested
        rw [String.empty_append, String.append_assoc, String.append_assoc, String.append_assoc]

/-- Under two names of the root, the names of an element have a common end. -/
theorem exists_suffix_of_mem_assign {e : Element} (h : e.HasDistinctFeatures) {path : ElementPath}
    {own own' qualified qualified' : String} {name other : ElementName}
    (hname : name ∈ assign path own qualified e) (hother : other ∈ assign path own' qualified' e)
    (hpath : name.path = other.path) :
    ∃ suffix, name.qualified = qualified ++ suffix ∧ other.qualified = qualified' ++ suffix := by
  have hbehind : ∀ {own qualified name}, name ∈ assign path own qualified e →
      ∃ behind ∈ assign path "" "" e, behind.path = name.path ∧
        name.qualified = qualified ++ behind.qualified := by
    intro own qualified name hname
    have hmem : (name.path, name.qualified) ∈
        (assign path own qualified e).map fun name => (name.path, name.qualified) :=
      List.mem_map_of_mem hname
    rw [map_assign_append e path own "" qualified] at hmem
    obtain ⟨behind, hbehind, heq⟩ := List.mem_map.mp hmem
    exact ⟨behind, hbehind, (Prod.mk.inj heq).1, (Prod.mk.inj heq).2.symm⟩
  obtain ⟨a, ha, hapath, haname⟩ := hbehind hname
  obtain ⟨b, hb, hbpath, hbname⟩ := hbehind hother
  have hsame : a = b := List.inj_on_of_nodup_map (nodup_path_assign h path "" "") ha hb
    (hapath.trans (hpath.trans hbpath.symm))
  rw [← hsame] at hbname
  exact ⟨a.qualified, haname, hbname⟩

/-- A name in front of which a package stands has one dot more. -/
theorem eq_of_append_eq_globalId {p a b suffix : String} (hp : IsPackageId p)
    (ha : '.' ∉ a.toList) (hb : '.' ∉ b.toList)
    (h : a ++ suffix = globalId p (b ++ suffix)) : a = b := by
  unfold globalId at h
  rw [if_neg hp.ne_empty] at h
  split at h
  · rename_i hbare
    exact (String.append_left_inj suffix).mp (h.trans hbare.symm)
  · have hcount := congrArg (fun name => name.toList.count '.') h
    simp only [String.toList_append, List.count_append] at hcount
    rw [List.count_eq_zero.mpr ha, List.count_eq_zero.mpr hb,
      List.count_eq_zero.mpr hp.dot_notMem] at hcount
    simp at hcount

end Name

/-! ## Trees in an index -/

/-- At a location the index lists elements of a tree, whose root has a given name. -/
structure Index.NamedAs (index : Index) (l : Location) (root : Element) (rootName : String) :
    Prop where
  dot_notMem : '.' ∉ rootName.toList
  rootName_eq : ((index.entriesIn l).find? (·.path.isRoot)).map (·.localName) = some rootName
  named : ∀ e ∈ index.entriesIn l, ∃ name ∈ Name.assign ElementPath.root rootName rootName root,
    name.path = e.path ∧ name.qualified = e.localName

/-- The entries of a unit are those of its tree, under a name that is free. -/
theorem UnitPlan.namedAs {plan : UnitPlan} (h : Name.IsPlain plan.rootName) {index : Index}
    {l : Location} {taken : List String} (hentries : index.entriesIn l = plan.newEntries taken) :
    index.NamedAs l plan.root
      (Name.freshBy (Name.globalId plan.package) taken plan.rootName) where
  dot_notMem := (h.freshBy (Name.globalId plan.package) taken).1
  rootName_eq := by
    obtain ⟨rest, hcons⟩ := plan.newEntries_eq_cons taken
    rw [hentries, hcons]
    rfl
  named := by
    intro e he
    rw [hentries] at he
    obtain ⟨-, name, hname, known, rfl⟩ := mem_entriesOf he
    exact ⟨name, hname, rfl, rfl⟩

/-- Elements at one path have names with a common end. -/
theorem Index.NamedAs.exists_suffix {i j : Index} {l : Location} {root : Element} {a b : String}
    (hi : i.NamedAs l root a) (hj : j.NamedAs l root b) (hroot : root.HasDistinctFeatures)
    {e other : IndexEntry} (he : e ∈ i.entriesIn l) (hother : other ∈ j.entriesIn l)
    (hpath : e.path = other.path) :
    ∃ suffix, e.localName = a ++ suffix ∧ other.localName = b ++ suffix := by
  obtain ⟨name, hname, hnamepath, hqualified⟩ := hi.named e he
  obtain ⟨name', hname', hnamepath', hqualified'⟩ := hj.named other hother
  rw [← hqualified, ← hqualified']
  exact Name.exists_suffix_of_mem_assign hroot hname hname'
    (hnamepath.trans (hpath.trans hnamepath'.symm))

/-- Each path has one entry. -/
theorem Index.NamedAs.eq_of_path_eq {index : Index} {l : Location} {root : Element} {a : String}
    (h : index.NamedAs l root a) (hcoherent : index.Coherent) (hroot : root.HasDistinctFeatures)
    {e other : IndexEntry} (he : e ∈ index.entriesIn l) (hother : other ∈ index.entriesIn l)
    (hpath : e.path = other.path) : e = other := by
  obtain ⟨suffix, hname, hname'⟩ := h.exists_suffix h hroot he hother hpath
  rw [hcoherent.entriesIn_eq, List.mem_filter, decide_eq_true_iff] at he hother
  exact hcoherent.eq_of_localName_eq he.1 hother.1 (he.2.trans hother.2.symm)
    (hname.trans hname'.symm)

end ModelWorkspace
