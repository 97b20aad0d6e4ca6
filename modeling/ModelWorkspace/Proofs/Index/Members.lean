import ModelWorkspace.Proofs.Index.Trees

/-!
# The attributes of entities

Entities are roots, and attributes are written directly below them.  The root of a tree gets
its entry first, so the entries of attributes name it as their container, whatever the other
names of the unit are (`container_of_attribute`), and they are listed in the order in which
the attributes are written (`exists_indices_attributesOf`).
-/

namespace ModelWorkspace

/-! ## Places of elements in a tree -/

namespace Element

variable {e root : Element} {path : ElementPath} {described : ElementPath × Element}

/-- Nested elements are as many levels below an element as their paths are longer. -/
theorem IsTyped.level_of_mem_descendantsFrom (h : e.IsTyped)
    (hmem : described ∈ descendantsFrom path e) :
    described.1.length + e.kind.level = path.length + described.2.kind.level := by
  induction h generalizing path with
  | @intro e hnumbered hkinds hnested ih =>
      rcases mem_descendantsFrom_iff.mp hmem with rfl | ⟨c, hc, index, child, hget, hbelow⟩
      · rfl
      · have hchild := List.mem_of_getElem? hget
        obtain ⟨spec, hspec, hkind⟩ := hkinds c hc child hchild
        have hlevel := ih c hc child hchild hbelow
        rw [hkind, ElementKind.level_of_containment? hspec, ElementPath.child,
          List.length_append, List.length_singleton] at hlevel
        omega

theorem IsLowered.length_path (h : root.IsLowered) (hmem : described ∈ root.descendants) :
    described.1.length = described.2.kind.level := by
  have hlevel := h.isTyped.2.level_of_mem_descendantsFrom hmem
  rw [ElementKind.level_of_isRoot h.isTyped.1] at hlevel
  simpa [ElementPath.root] using hlevel

/-- Elements directly below a root are listed under a feature of its kind. -/
theorem IsLowered.exists_feature (h : root.IsLowered) (hmem : described ∈ root.descendants)
    (hlevel : described.2.kind.level = 1) :
    ∃ feature index spec, described.1 = ElementPath.root.child feature index ∧
      root.kind.containment? feature = some spec ∧ described.2.kind = spec.kind := by
  have hlength := h.length_path hmem
  rw [hlevel, List.length_eq_one_iff] at hlength
  obtain ⟨step, hpath⟩ := hlength
  have hwalk := walk_of_mem_descendants h.distinct hmem
  rw [hpath, walk] at hwalk
  split at hwalk
  · cases hwalk
  · rename_i c hc
    split at hwalk
    · cases hwalk
    · rename_i child hchild
      cases hwalk
      have hfeature : c.feature = step.feature := by simpa using List.find?_some hc
      obtain ⟨-, hkinds, -⟩ := h.isTyped.2
      obtain ⟨spec, hspec, hkind⟩ :=
        hkinds c (List.mem_of_find?_eq_some hc) _ (List.mem_of_getElem? hchild)
      exact ⟨step.feature, step.index, spec, hpath, hfeature ▸ hspec, hkind⟩

/-- The elements of one feature are listed in order. -/
theorem HasDistinctFeatures.pairwise_siblings (h : e.HasDistinctFeatures) (path : ElementPath) :
    (descendantsFrom path e).Pairwise fun a b => ∀ (container : ElementPath) feature i j,
      a.1 = container.child feature i → b.1 = container.child feature j → i < j := by
  induction h generalizing path with
  | @intro e hnodup hnested ih =>
      -- steps are taken in order, those of one feature by their indices
      have hsteps : (e.children.flatMap stepsOf).Pairwise fun x y =>
          x.1.feature = y.1.feature → x.1.index < y.1.index := by
        rw [List.pairwise_flatMap]
        refine ⟨fun c _ => List.pairwise_map.mpr ?_, (List.pairwise_map.mp hnodup).imp ?_⟩
        · have hindices : (c.elements.zipIdx.map (·.2)).Pairwise (· < ·) := by
            rw [List.zipIdx_map_snd]
            exact List.pairwise_lt_range'
          refine (List.pairwise_map.mp hindices).imp fun {a b} hlt _ => ?_
          exact hlt
        · intro c d hne x hx y hy hsame
          rw [(Name.step_of_mem_stepsOf hx).1, (Name.step_of_mem_stepsOf hy).1] at hsame
          exact absurd hsame hne
      rw [descendantsFrom_eq, List.pairwise_cons, List.pairwise_flatMap]
      refine ⟨fun described hmem container feature i j ha hb => ?_, fun x hx => ?_, ?_⟩
      · -- what is nested has a longer path
        obtain ⟨x, hx, hmem⟩ := List.mem_flatMap.mp hmem
        obtain ⟨rest, hpath⟩ := exists_rest_of_mem_step hmem
        have hlength := congrArg List.length (hpath.symm.trans hb)
        have hlength' := congrArg List.length ha
        simp [ElementPath.child] at hlength hlength'
        omega
      · obtain ⟨c, hc, hx⟩ := List.mem_flatMap.mp hx
        exact ih c hc x.2 (Name.step_of_mem_stepsOf hx).2 _
      · refine hsteps.imp fun {x y} hxy a ha b hb container feature i j hi hj => ?_
        obtain ⟨rest, hpath⟩ := exists_rest_of_mem_step ha
        obtain ⟨rest', hpath'⟩ := exists_rest_of_mem_step hb
        rw [hpath, ElementPath.child] at hi
        rw [hpath', ElementPath.child] at hj
        rcases rest.eq_nil_or_concat with rfl | ⟨front, last, rfl⟩
        · obtain ⟨rfl, hstep⟩ := List.append_inj' hi rfl
          obtain ⟨hstep', -⟩ := List.cons.inj (List.append_cancel_left hj)
          rw [(List.cons.inj hstep).1, hstep'] at hxy
          exact hxy rfl
        · -- then the steps are the same, as those to the container are
          exfalso
          rw [List.concat_eq_append, ← List.cons_append, ← List.append_assoc] at hi
          obtain ⟨rfl, -⟩ := List.append_inj' hi rfl
          rw [List.append_assoc, List.cons_append] at hj
          have hstep := (List.cons.inj (List.append_cancel_left hj)).1
          rw [hstep] at hxy
          exact Nat.lt_irrefl _ (hxy rfl)

end Element

/-- Attributes of entities stand under one feature. -/
theorem ElementKind.feature_of_attribute {kind : ElementKind} {feature : String}
    {spec : ContainmentSpec} (hspec : kind.containment? feature = some spec)
    (hattribute : spec.kind = .entityAttribute) : feature = "attributes" := by
  have hall : ∀ spec ∈ kind.containments, spec.kind = .entityAttribute →
      spec.feature = "attributes" := by
    cases kind <;> decide
  have hfeature : spec.feature = feature := by simpa using List.find?_some hspec
  rw [← hfeature]
  exact hall spec (List.mem_of_find?_eq_some hspec) hattribute

theorem Element.IsLowered.path_of_attribute {root : Element} (h : root.IsLowered)
    {described : ElementPath × Element} (hmem : described ∈ root.descendants)
    (hkind : described.2.kind = .entityAttribute) :
    ∃ index, described.1 = ElementPath.root.child "attributes" index := by
  obtain ⟨feature, index, spec, hpath, hspec, hsame⟩ := h.exists_feature hmem (by rw [hkind]; rfl)
  rw [ElementKind.feature_of_attribute hspec (hsame.symm.trans hkind)] at hpath
  exact ⟨index, hpath⟩

/-! ## Entries of one tree -/

namespace UnitPlan

variable {plan : UnitPlan} {taken : List String} {assigned : List (ElementPath × String)}
  {names : List ElementName} {e owner : IndexEntry}

theorem exists_described_of_mem_newEntries (h : plan.root.IsLowered)
    (he : e ∈ plan.newEntries taken) :
    ∃ described ∈ plan.root.descendants, described.1 = e.path ∧ described.2.kind = e.kind := by
  obtain ⟨-, -, name, hname, hpath, hkind⟩ := mem_newEntries he
  obtain ⟨element, hwalk, hsame⟩ := Naming.exists_walk h.distinct hname
  refine ⟨_, Element.mem_descendants_of_walk hwalk, hpath.symm, ?_⟩
  rw [hkind, ← hsame]

theorem paths_entriesOf_sublist (plan : UnitPlan) (taken : List String)
    (assigned : List (ElementPath × String)) (names : List ElementName) :
    ((plan.entriesOf taken assigned names).map (·.path)).Sublist (names.map (·.path)) := by
  induction names generalizing taken assigned with
  | nil => exact List.Sublist.refl _
  | cons name rest ih =>
      unfold entriesOf
      dsimp only
      split
      · exact (ih taken assigned).cons _
      · exact (ih _ _).cons_cons _

/-- Entries are listed in the order in which the elements are. -/
theorem paths_newEntries_sublist (plan : UnitPlan) (taken : List String) :
    ((plan.newEntries taken).map (·.path)).Sublist (plan.root.descendants.map (·.1)) := by
  have hnames : (plan.namesGiven taken).map (·.path) = plan.root.descendants.map (·.1) := by
    have hboth := congrArg (List.map Prod.fst) (Name.map_assign plan.root ElementPath.root
      (Name.freshGlobal taken plan.package plan.rootName).1
      (Name.freshGlobal taken plan.package plan.rootName).1)
    rw [List.map_map, List.map_map] at hboth
    exact hboth
  rw [← hnames]
  exact plan.paths_entriesOf_sublist taken [] _

/-- What lies directly below the root has the root for its container. -/
theorem container_of_mem_entriesOf {id : String}
    (hroot : assigned.lookup ElementPath.root = some id)
    (hnames : ∀ name ∈ names, name.path ≠ ElementPath.root)
    (he : e ∈ plan.entriesOf taken assigned names)
    (hparent : e.path.parent? = some ElementPath.root) : e.container = some id := by
  induction names generalizing taken assigned with
  | nil => exact absurd he List.not_mem_nil
  | cons name rest ih =>
      obtain ⟨hname, hrest⟩ := List.forall_mem_cons.mp hnames
      unfold entriesOf at he
      dsimp only at he
      split at he
      · exact ih hroot hrest he
      · rcases List.mem_cons.mp he with rfl | he
        · show name.path.parent?.bind _ = _
          rw [show name.path.parent? = some ElementPath.root from hparent]
          exact hroot
        · refine ih ?_ hrest he
          rw [List.lookup_cons, beq_false_of_ne (Ne.symm hname)]
          exact hroot

theorem container_of_mem_newEntries (h : plan.root.HasDistinctFeatures)
    (howner : owner ∈ plan.newEntries taken) (hroot : owner.path = ElementPath.root)
    (he : e ∈ plan.newEntries taken) (hparent : e.path.parent? = some ElementPath.root) :
    e.container = some owner.globalId := by
  let rootName := (Name.freshGlobal taken plan.package plan.rootName).1
  have hfree : Name.globalId plan.package rootName ∉ taken :=
    Name.freshBy_notMem (Name.globalId_injective plan.package) taken plan.rootName
  have hordered := Name.pairwise_assign h ElementPath.root rootName rootName
  unfold newEntries namesGiven Naming.withRootName at howner he
  rw [Name.assign_eq] at hordered howner he
  have hbelow := (List.pairwise_cons.mp hordered).1
  rw [entriesOf, if_neg hfree] at howner he
  rcases List.mem_cons.mp howner with rfl | howner
  · rcases List.mem_cons.mp he with rfl | he
    · cases hparent
    · refine container_of_mem_entriesOf ?_ ?_ he hparent
      · exact List.lookup_cons_self
      · intro name hname heq
        exact hbelow name hname (heq ▸ List.prefix_rfl)
  · -- no other name is that of the root
    obtain ⟨-, name, hname, known, rfl⟩ := mem_entriesOf howner
    exact absurd (show name.path <+: ElementPath.root from
      (show name.path = ElementPath.root from hroot) ▸ List.prefix_rfl) (hbelow name hname)

end UnitPlan

/-! ## Entities and attributes in an index -/

/-- The attributes that lie directly below an entry. -/
def Index.attributesOf (index : Index) (id : String) : List IndexEntry :=
  index.entries.filter fun e => e.kind = .entityAttribute ∧ e.container = some id

namespace Index.OfTrees

variable {packages : String → Prop} {trees : Element → Prop} {index : Index}
  {e owner : IndexEntry}

/-- An attribute lies below the entity of its unit. -/
theorem container_of_attribute (h : index.OfTrees packages trees) (howner : owner ∈ index.entries)
    (hentity : owner.kind = .entity) (he : e ∈ index.entries)
    (hattribute : e.kind = .entityAttribute) (hl : e.location = owner.location) :
    e.container = some owner.globalId := by
  obtain ⟨plan, hplan, taken, heq, hmem⟩ := h.exists_plan howner
  have hmem' : e ∈ plan.newEntries taken := by
    rw [← heq, h.coherent.entriesIn_eq]
    exact List.mem_filter.mpr ⟨he, decide_eq_true hl⟩
  obtain ⟨described, hdescribed, hpath, hkind⟩ :=
    UnitPlan.exists_described_of_mem_newEntries hplan.lowered hmem
  obtain ⟨described', hdescribed', hpath', hkind'⟩ :=
    UnitPlan.exists_described_of_mem_newEntries hplan.lowered hmem'
  have hroot := hplan.lowered.length_path hdescribed
  rw [hkind, hentity, hpath, ElementKind.level, List.length_eq_zero_iff] at hroot
  obtain ⟨i, hbelow⟩ := hplan.lowered.path_of_attribute hdescribed' (hkind'.trans hattribute)
  refine UnitPlan.container_of_mem_newEntries hplan.lowered.distinct hmem hroot hmem' ?_
  rw [← hpath', hbelow]
  rfl

/-- The attributes of an entity are listed in the order in which they are written. -/
theorem exists_indices_attributesOf (h : index.OfTrees packages trees)
    (howner : owner ∈ index.entries) :
    ∃ indices : List Nat, indices.Pairwise (· < ·) ∧
      (index.attributesOf owner.globalId).map (·.path) =
        indices.map (ElementPath.root.child "attributes") := by
  obtain ⟨plan, hplan, taken, heq, -⟩ := h.exists_plan howner
  -- the attributes of an entity stand in its unit
  have hunit : index.attributesOf owner.globalId = (plan.newEntries taken).filter fun e =>
      e.kind = .entityAttribute ∧ e.container = some owner.globalId := by
    unfold attributesOf
    rw [← heq, h.coherent.entriesIn_eq, List.filter_filter]
    refine List.filter_congr fun e he => ?_
    by_cases hcontainer : e.container = some owner.globalId
    · obtain ⟨other, hother, hid, hl⟩ := h.coherent.container_mem e he _ hcontainer
      simp [hcontainer, ← hl, h.coherent.entry_unique hother howner hid]
    · simp [hcontainer]
  have hsublist : ((index.attributesOf owner.globalId).map (·.path)).Sublist
      (plan.root.descendants.map (·.1)) := by
    rw [hunit]
    exact (List.filter_sublist.map _).trans (plan.paths_newEntries_sublist taken)
  have hpaths : ∀ path ∈ (index.attributesOf owner.globalId).map (·.path),
      path ∈ Set.range (ElementPath.root.child "attributes") := by
    intro path hpath
    rw [hunit] at hpath
    obtain ⟨e, he, rfl⟩ := List.mem_map.mp hpath
    obtain ⟨hmem, hkind⟩ := List.mem_filter.mp he
    obtain ⟨described, hdescribed, hplace, hsame⟩ :=
      UnitPlan.exists_described_of_mem_newEntries hplan.lowered hmem
    obtain ⟨i, hi⟩ := hplan.lowered.path_of_attribute hdescribed
      (hsame.trans (of_decide_eq_true hkind).1)
    exact ⟨i, by rw [← hi, hplace]⟩
  obtain ⟨indices, hindices⟩ : _ ∈ Set.range (List.map (ElementPath.root.child "attributes")) := by
    rw [Set.range_list_map]
    exact hpaths
  have hordered : (plan.root.descendants.map (·.1)).Pairwise fun a b => ∀ (container : ElementPath)
      feature i j, a = container.child feature i → b = container.child feature j → i < j :=
    List.pairwise_map.mpr (hplan.lowered.distinct.pairwise_siblings ElementPath.root)
  have hmembers := hordered.sublist hsublist
  rw [← hindices] at hmembers
  refine ⟨indices, (List.pairwise_map.mp hmembers).imp fun hab => ?_, hindices.symm⟩
  exact hab ElementPath.root "attributes" _ _ rfl rfl

end Index.OfTrees
end ModelWorkspace
