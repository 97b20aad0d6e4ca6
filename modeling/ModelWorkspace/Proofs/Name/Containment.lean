import ModelWorkspace.Proofs.Name.Assignment

/-!
# Containers come before what they contain

The list of the elements of a tree never goes back: no later path is the beginning of an
earlier one (`pairwise_descendants`).  So paths are listed once, and a container stands
before everything in it.  The same holds of names, which are given to the listed paths.

The name of a nested element is that of its container with its own name behind a dot
(`exists_container_of_mem_assign`).  So the number of dots in a name tells the level of the
element, and the schema knows the level from the kind (`count_dot_of_mem_assign`).
-/

namespace ModelWorkspace

/-- The path of a container is a beginning of the path of an element in it. -/
theorem ElementPath.prefix_of_parent? {path parent : ElementPath}
    (h : path.parent? = some parent) : parent <+: path ∧ parent ≠ path := by
  unfold ElementPath.parent? at h
  split at h
  · cases h
  · rename_i hne
    cases h
    refine ⟨List.dropLast_prefix path, fun heq => ?_⟩
    have hlength := congrArg List.length heq
    rw [List.length_dropLast] at hlength
    have := List.length_pos_iff.mpr hne
    omega

namespace Element

/-! ## Listed paths -/

theorem descendantsFrom_eq (path : ElementPath) (e : Element) :
    descendantsFrom path e = (path, e) ::
      (e.children.flatMap stepsOf).flatMap fun x =>
        descendantsFrom (path.child x.1.feature x.1.index) x.2 := by
  have hunfold : descendantsFrom path e = (path, e) :: descendantsOfAll path e.children := by
    cases e
    rw [descendantsFrom]
  rw [hunfold, descendantsOfAll_eq, List.flatMap_assoc]
  congr 1
  refine List.flatMap_congr fun c _ => ?_
  rw [descendantsOfList_eq, stepsOf, List.flatMap_map]

/-- No later path is the beginning of an earlier one. -/
theorem pairwise_descendantsFrom {e : Element} (h : e.HasDistinctFeatures)
    (path : ElementPath) :
    (descendantsFrom path e).Pairwise fun a b => ¬ b.1 <+: a.1 := by
  induction h generalizing path with
  | @intro e hnodup hnested ih =>
      rw [descendantsFrom_eq, List.pairwise_cons, List.pairwise_flatMap]
      refine ⟨fun described hmem hbegins => ?_, fun x hx => ?_, ?_⟩
      · -- what is nested has a longer path
        obtain ⟨x, hx, hmem⟩ := List.mem_flatMap.mp hmem
        obtain ⟨rest, hpath⟩ := exists_rest_of_mem_step hmem
        have hlength : described.1.length ≤ path.length := hbegins.length_le
        rw [hpath, List.length_append, List.length_cons] at hlength
        omega
      · obtain ⟨c, hc, hx⟩ := List.mem_flatMap.mp hx
        exact ih c hc x.2 (Name.step_of_mem_stepsOf hx).2 _
      · -- siblings begin with different steps
        have hsteps : (e.children.flatMap stepsOf).Pairwise fun x y => x.1 ≠ y.1 :=
          List.pairwise_map.mp (Name.nodup_steps hnodup)
        refine hsteps.imp fun {x y} hne a ha b hb hbegins => hne ?_
        obtain ⟨rest, hpath⟩ := exists_rest_of_mem_step ha
        obtain ⟨rest', hpath'⟩ := exists_rest_of_mem_step hb
        rw [hpath, hpath', List.prefix_append_right_inj, List.cons_prefix_cons] at hbegins
        exact hbegins.1.symm

theorem pairwise_descendants {e : Element} (h : e.HasDistinctFeatures) :
    e.descendants.Pairwise fun a b => ¬ b.1 <+: a.1 :=
  pairwise_descendantsFrom h ElementPath.root

theorem mem_descendantsFrom_of_walk {e target : Element} {path rest : ElementPath}
    (h : e.walk rest = some target) : (path ++ rest, target) ∈ descendantsFrom path e := by
  induction rest generalizing e path with
  | nil =>
      rw [walk] at h
      cases h
      rw [List.append_nil]
      exact mem_descendantsFrom_iff.mpr (Or.inl rfl)
  | cons step rest ih =>
      rw [walk] at h
      split at h
      · cases h
      · rename_i c hc
        split at h
        · cases h
        · rename_i child hchild
          have hfeature : c.feature = step.feature := by simpa using List.find?_some hc
          refine mem_descendantsFrom_iff.mpr
            (Or.inr ⟨c, List.mem_of_find?_eq_some hc, step.index, child, hchild, ?_⟩)
          have hmem : (path.child c.feature step.index ++ rest, target) ∈
              descendantsFrom (path.child c.feature step.index) child := ih h
          rw [ElementPath.child, List.append_assoc, hfeature] at hmem
          rw [ElementPath.child, hfeature]
          exact hmem

/-- Every element that a path leads to is listed with this path. -/
theorem mem_descendants_of_walk {e target : Element} {path : ElementPath}
    (h : e.walk path = some target) : (path, target) ∈ e.descendants := by
  show (ElementPath.root ++ path, target) ∈ descendantsFrom ElementPath.root e
  exact mem_descendantsFrom_of_walk h

end Element

namespace Name

/-! ## Names below names -/

/-- A name is that of its container with an own name behind it. -/
structure IsIn (name container : ElementName) : Prop where
  parent?_eq : name.path.parent? = some container.path
  qualified_eq : name.qualified = nested container.qualified name.own
  dot_notMem : '.' ∉ name.own.toList

/-- Every name but that of the root has its container among the names. -/
theorem exists_container_of_mem_assign {e : Element} (h : e.IsNameable) {path : ElementPath}
    {own qualified : String} {name : ElementName} (hname : name ∈ assign path own qualified e) :
    name = ⟨path, own, qualified, e.kind⟩ ∨
      ∃ container ∈ assign path own qualified e, IsIn name container := by
  induction h generalizing path own qualified with
  | @intro e hnodup hfeatures hids hnested ih =>
      have hdots := (nodup_childNames (.intro hnodup hfeatures hids hnested)).2
      rw [assign_eq] at hname ⊢
      rcases List.mem_cons.mp hname with hname | hname
      · exact Or.inl hname
      · obtain ⟨x, hx, hmem⟩ := List.mem_flatMap.mp hname
        obtain ⟨c, hc, hchild⟩ := List.mem_flatMap.mp (List.of_mem_zip hx).1
        rcases ih c hc x.1.2 (step_of_mem_stepsOf hchild).2 hmem with rfl | ⟨container, hin, hbelow⟩
        · refine Or.inr ⟨_, List.mem_cons_self, ?_, rfl, hdots x.2 (List.of_mem_zip hx).2⟩
          simp [ElementPath.parent?, ElementPath.child]
        · exact Or.inr ⟨container, List.mem_cons_of_mem _ (List.mem_flatMap.mpr ⟨x, hx, hin⟩),
            hbelow⟩

/-- Names are listed in the order of their paths, each path once. -/
theorem pairwise_assign {e : Element} (h : e.HasDistinctFeatures) (path : ElementPath)
    (own qualified : String) :
    (assign path own qualified e).Pairwise fun a b => ¬ b.path <+: a.path := by
  have hpaths : (assign path own qualified e).map (·.path) =
      (Element.descendantsFrom path e).map (·.1) := by
    have hboth := congrArg (List.map Prod.fst) (map_assign e path own qualified)
    rw [List.map_map, List.map_map] at hboth
    exact hboth
  have hlisted : ((Element.descendantsFrom path e).map (·.1)).Pairwise fun a b => ¬ b <+: a :=
    List.pairwise_map.mpr (Element.pairwise_descendantsFrom h path)
  rw [← hpaths] at hlisted
  exact List.pairwise_map.mp hlisted

theorem nodup_path_assign {e : Element} (h : e.HasDistinctFeatures) (path : ElementPath)
    (own qualified : String) : ((assign path own qualified e).map (·.path)).Nodup := by
  refine List.pairwise_map.mpr ((pairwise_assign h path own qualified).imp ?_)
  rintro a b hbegins heq
  exact hbegins (heq ▸ List.prefix_rfl)

/-- A container stands before what is in it. -/
theorem mem_before_of_isIn {e : Element} (h : e.HasDistinctFeatures) {path : ElementPath}
    {own qualified : String} {before after : List ElementName} {name container : ElementName}
    (hnames : assign path own qualified e = before ++ name :: after)
    (hcontainer : container ∈ assign path own qualified e) (hin : IsIn name container) :
    container ∈ before := by
  have hordered := pairwise_assign h path own qualified
  rw [hnames, List.pairwise_append, List.pairwise_cons] at hordered
  obtain ⟨hbegins, hne⟩ := ElementPath.prefix_of_parent? hin.parent?_eq
  rw [hnames] at hcontainer
  rcases List.mem_append.mp hcontainer with hbefore | hcontainer
  · exact hbefore
  · rcases List.mem_cons.mp hcontainer with rfl | hafter
    · exact absurd rfl hne
    · exact absurd hbegins (hordered.2.1.1 container hafter)

end Name

/-! ## Levels -/

/-- How deep elements of a kind lie below the root of their unit. -/
def ElementKind.level : ElementKind → Nat
  | entity | relationship | systemDiagram | mapping => 0
  | attributeMapping => 2
  | _ => 1

theorem ElementKind.level_of_isRoot {kind : ElementKind} (h : kind.isRoot = true) :
    kind.level = 0 := by
  cases kind <;> first | rfl | cases h

theorem ElementKind.level_of_containment? {kind : ElementKind} {feature : String}
    {spec : ContainmentSpec} (h : kind.containment? feature = some spec) :
    spec.kind.level = kind.level + 1 := by
  have hall : ∀ spec ∈ kind.containments, spec.kind.level = kind.level + 1 := by
    cases kind <;> decide
  exact hall spec (List.mem_of_find?_eq_some h)

namespace Name

theorem count_dot_nested (container own : String) :
    (nested container own).toList.count '.' =
      container.toList.count '.' + 1 + own.toList.count '.' := by
  have hdot : ".".toList.count '.' = 1 := rfl
  unfold nested
  rw [String.toList_append, String.toList_append, List.count_append, List.count_append, hdot]

/-- A name has as many dots more than that of the root of its tree as its kind lies below
that of the root. -/
theorem count_dot_of_mem_assign {e : Element} (h : e.IsNameable) (htyped : e.IsTyped)
    {path : ElementPath} {own qualified : String} {name : ElementName}
    (hname : name ∈ assign path own qualified e) :
    name.qualified.toList.count '.' + e.kind.level =
      qualified.toList.count '.' + name.kind.level := by
  induction h generalizing path own qualified with
  | @intro e hnodup hfeatures hids hnested ih =>
      have hdots := (nodup_childNames (.intro hnodup hfeatures hids hnested)).2
      obtain ⟨-, hkinds, htyped⟩ := htyped
      rw [assign_eq] at hname
      rcases List.mem_cons.mp hname with rfl | hname
      · rfl
      · obtain ⟨x, hx, hmem⟩ := List.mem_flatMap.mp hname
        obtain ⟨c, hc, hstep⟩ := List.mem_flatMap.mp (List.of_mem_zip hx).1
        have hchild := (step_of_mem_stepsOf hstep).2
        obtain ⟨spec, hspec, hkind⟩ := hkinds c hc x.1.2 hchild
        have hbelow := ih c hc x.1.2 hchild (htyped c hc x.1.2 hchild) hmem
        rw [count_dot_nested, List.count_eq_zero.mpr (hdots x.2 (List.of_mem_zip hx).2), hkind,
          ElementKind.level_of_containment? hspec] at hbelow
        omega

end Name
end ModelWorkspace
