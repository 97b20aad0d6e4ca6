import ModelWorkspace.Proofs.Element.Lowering
import ModelWorkspace.Proofs.Name.Segments

/-!
# Names in a tree are all different

Siblings get different names: a declared name gives way to all names before it, and
synthetic names differ by their places and from everything that is declared.  None of these
names has a dot in it.  So the names of nested elements lie below different segments, and
all qualified names of a tree are different (`nodup_assign`) and lie within that of the
root (`isWithin_of_mem_assign`).
-/

namespace ModelWorkspace

/-- What names in a tree are made of: features that are written once, and, like the
identifiers that nested elements declare, are plain. -/
inductive Element.IsNameable : Element → Prop
  | intro {e : Element} (nodup : (e.children.map (·.feature)).Nodup)
      (features : ∀ c ∈ e.children, Name.IsPlain c.feature)
      (ids : ∀ c ∈ e.children, ∀ child ∈ c.elements, ∀ id, child.id = some id →
        Name.IsPlain id)
      (nested : ∀ c ∈ e.children, ∀ child ∈ c.elements, IsNameable child) : IsNameable e

namespace Name

/-! ## Siblings -/

theorem length_siblingNames (named : NamedSiblings)
    (siblings : List (PathStep × Option String)) :
    (siblingNames named siblings).length = siblings.length := by
  induction siblings generalizing named with
  | nil => rfl
  | cons sibling rest ih =>
      obtain ⟨step, declared⟩ := sibling
      cases declared with
      | some declared => rw [siblingNames, List.length_cons, List.length_cons, ih]
      | none => rw [siblingNames, List.length_cons, List.length_cons, ih]

/-- Siblings at different places have different names, none of which was taken before. -/
theorem nodup_siblingNames {named : NamedSiblings} {siblings : List (PathStep × Option String)}
    (hsteps : (siblings.map (·.1)).Nodup) (hfeatures : ∀ s ∈ siblings, IsPlain s.1.feature)
    (hids : ∀ s ∈ siblings, ∀ id, s.2 = some id → IsPlain id)
    (hfree : ∀ s ∈ siblings, synthetic s.1.feature s.1.index ∉ named.taken) :
    (siblingNames named siblings).Nodup ∧
      ∀ own ∈ siblingNames named siblings, own ∉ named.taken ∧ '.' ∉ own.toList := by
  induction siblings generalizing named with
  | nil => exact ⟨List.nodup_nil, fun _ hown => absurd hown List.not_mem_nil⟩
  | cons sibling rest ih =>
      obtain ⟨step, declared⟩ := sibling
      rw [List.map_cons] at hsteps
      obtain ⟨hnew, hsteps⟩ := List.nodup_cons.mp hsteps
      obtain ⟨hfeature, hothers⟩ := List.forall_mem_cons.mp hfeatures
      obtain ⟨hid, hids⟩ := List.forall_mem_cons.mp hids
      obtain ⟨hfirst, hrest⟩ := List.forall_mem_cons.mp hfree
      -- what follows avoids the names that are taken then, and the new one is among them
      have hnext : ∀ {own : String} {next : NamedSiblings}, next.taken = own :: named.taken →
          own ∉ named.taken → '.' ∉ own.toList →
          (∀ s ∈ rest, synthetic s.1.feature s.1.index ≠ own) →
          (own :: siblingNames next rest).Nodup ∧
            ∀ name ∈ own :: siblingNames next rest,
              name ∉ named.taken ∧ '.' ∉ name.toList := by
        intro own next htaken hown hdot hne
        have hfree : ∀ s ∈ rest, synthetic s.1.feature s.1.index ∉ next.taken := by
          intro s hs
          rw [htaken, List.mem_cons, not_or]
          exact ⟨hne s hs, hrest s hs⟩
        obtain ⟨hnodup, hall⟩ := ih hsteps hothers hids hfree
        rw [htaken] at hall
        refine ⟨List.nodup_cons.mpr ⟨fun hmem => (hall own hmem).1 List.mem_cons_self, hnodup⟩,
          List.forall_mem_cons.mpr ⟨⟨hown, hdot⟩, fun name hname => ?_⟩⟩
        obtain ⟨hnot, hname⟩ := hall name hname
        exact ⟨fun hmem => hnot (List.mem_cons_of_mem _ hmem), hname⟩
      cases declared with
      | some declared =>
          rw [siblingNames]
          have hplain : IsPlain (candidate declared (named.number declared)) := by
            rw [NamedSiblings.candidate_number]
            exact (hid declared rfl).freshBy id named.taken
          have hown : candidate declared (named.number declared) ∉ named.taken := by
            rw [NamedSiblings.candidate_number]
            exact freshBy_notMem Function.injective_id named.taken declared
          refine hnext rfl hown hplain.1 fun s _ heq => hplain.2 ?_
          rw [← heq]
          exact at_mem_synthetic s.1.feature s.1.index
      | none =>
          rw [siblingNames]
          refine hnext rfl hfirst (dot_notMem_synthetic hfeature step.index) ?_
          intro s hs heq
          obtain ⟨hsame, hindex⟩ := synthetic_inj (hothers s hs) hfeature heq
          refine hnew (List.mem_map.mpr ⟨s, hs, ?_⟩)
          obtain ⟨⟨feature, index⟩, id⟩ := s
          cases hsame
          cases hindex
          rfl

/-! ## Places -/

theorem step_of_mem_stepsOf {c : Containment Element} {x : PathStep × Element}
    (hx : x ∈ Element.stepsOf c) : x.1.feature = c.feature ∧ x.2 ∈ c.elements := by
  obtain ⟨⟨child, index⟩, hmem, rfl⟩ := List.mem_map.mp hx
  exact ⟨rfl, List.mem_of_getElem? (List.mem_zipIdx_iff_getElem?.mp hmem)⟩

theorem nodup_stepsOf (c : Containment Element) :
    ((Element.stepsOf c).map (·.1)).Nodup := by
  have hindices : (c.elements.zipIdx.map (·.2)).Nodup := by
    rw [List.zipIdx_map_snd]
    exact List.nodup_range'
  have hsteps : (Element.stepsOf c).map (·.1) =
      (c.elements.zipIdx.map (·.2)).map (PathStep.mk c.feature) := by
    rw [Element.stepsOf, List.map_map, List.map_map]
    rfl
  rw [hsteps]
  refine hindices.map fun m n h => ?_
  cases h
  rfl

/-- Nested elements stand at different places. -/
theorem nodup_steps {cs : List (Containment Element)} (h : (cs.map (·.feature)).Nodup) :
    ((cs.flatMap Element.stepsOf).map (·.1)).Nodup := by
  rw [List.map_flatMap, List.nodup_flatMap]
  refine ⟨fun c _ => nodup_stepsOf c, (List.pairwise_map.mp h).imp ?_⟩
  intro c d hne
  refine List.disjoint_left.mpr fun step hc hd => hne ?_
  obtain ⟨x, hx, rfl⟩ := List.mem_map.mp hc
  obtain ⟨y, hy, hstep⟩ := List.mem_map.mp hd
  rw [← (step_of_mem_stepsOf hx).1, ← (step_of_mem_stepsOf hy).1, hstep]

theorem length_childNames (cs : List (Containment Element)) :
    (childNames cs).length = (cs.flatMap Element.stepsOf).length := by
  rw [childNames, length_siblingNames, List.length_map]

/-- The elements nested in an element have different names without dots. -/
theorem nodup_childNames {e : Element} (h : e.IsNameable) :
    (childNames e.children).Nodup ∧ ∀ own ∈ childNames e.children, '.' ∉ own.toList := by
  obtain ⟨hnodup, hfeatures, hids, -⟩ := h
  have hmem : ∀ {s}, s ∈ (e.children.flatMap Element.stepsOf).map (fun x => (x.1, x.2.id)) →
      ∃ c ∈ e.children, s.1.feature = c.feature ∧ ∃ child ∈ c.elements, s.2 = child.id := by
    intro s hs
    obtain ⟨x, hx, rfl⟩ := List.mem_map.mp hs
    obtain ⟨c, hc, hx⟩ := List.mem_flatMap.mp hx
    obtain ⟨hfeature, hchild⟩ := step_of_mem_stepsOf hx
    exact ⟨c, hc, hfeature, x.2, hchild, rfl⟩
  have hsteps : (((e.children.flatMap Element.stepsOf).map fun x => (x.1, x.2.id)).map
      (·.1)).Nodup := by
    rw [List.map_map]
    exact nodup_steps hnodup
  have hnames : (childNames e.children).Nodup ∧ ∀ own ∈ childNames e.children,
      own ∉ NamedSiblings.empty.taken ∧ '.' ∉ own.toList := by
    refine nodup_siblingNames hsteps ?_ ?_ fun _ _ => List.not_mem_nil
    · intro s hs
      obtain ⟨c, hc, hfeature, -⟩ := hmem hs
      rw [hfeature]
      exact hfeatures c hc
    · intro s hs id hid
      obtain ⟨c, hc, -, child, hchild, heq⟩ := hmem hs
      exact hids c hc child hchild id (heq.symm.trans hid)
  exact ⟨hnames.1, fun own hown => (hnames.2 own hown).2⟩

/-! ## Trees -/

/-- The names of a nested element, which has a local name, and of what is nested in it. -/
def nestedNames (path : ElementPath) (qualified : String) (x : (PathStep × Element) × String) :
    List ElementName :=
  assign (path.child x.1.1.feature x.1.1.index) x.2 (nested qualified x.2) x.1.2

theorem zip_append_drop {α β : Type} (xs ys : List α) (zs : List β) :
    (xs ++ ys).zip zs = xs.zip zs ++ ys.zip (zs.drop xs.length) := by
  induction xs generalizing zs with
  | nil => rfl
  | cons x rest ih =>
      cases zs with
      | nil => simp
      | cons z zs => simp [ih]

theorem assignList_eq (path : ElementPath) (qualified feature : String) (index : Nat)
    {names : List String} {es : List Element} (h : es.length ≤ names.length) :
    assignList path qualified feature index names es =
      (((es.zipIdx index).map fun (e, i) => (PathStep.mk feature i, e)).zip names).flatMap
        (nestedNames path qualified) := by
  induction es generalizing index names with
  | nil => rfl
  | cons e rest ih =>
      cases names with
      | nil => exact absurd h (by simp)
      | cons own names =>
          rw [assignList, List.headD_cons, List.tail_cons,
            ih (index + 1) (Nat.le_of_succ_le_succ h)]
          rfl

/-- Nested elements are named one after the other. -/
theorem assignAll_eq (path : ElementPath) (qualified : String) {names : List String}
    {cs : List (Containment Element)}
    (h : (cs.flatMap Element.stepsOf).length ≤ names.length) :
    assignAll path qualified names cs =
      ((cs.flatMap Element.stepsOf).zip names).flatMap (nestedNames path qualified) := by
  induction cs generalizing names with
  | nil => rfl
  | cons c rest ih =>
      have hlength : (Element.stepsOf c).length = c.elements.length := by
        rw [Element.stepsOf, List.length_map, List.length_zipIdx]
      rw [List.flatMap_cons, List.length_append, hlength] at h
      have hrest : (rest.flatMap Element.stepsOf).length ≤
          (names.drop c.elements.length).length := by
        rw [List.length_drop]
        omega
      have hfirst : assignOne path qualified names c =
          ((Element.stepsOf c).zip names).flatMap (nestedNames path qualified) := by
        obtain ⟨feature, elements⟩ := c
        exact assignList_eq path qualified feature 0 (by simp only at h; omega)
      rw [assignAll, hfirst, ih hrest, List.flatMap_cons, zip_append_drop, hlength,
        List.flatMap_append]

/-- The names of a tree are that of its root and those of the nested elements. -/
theorem assign_eq (path : ElementPath) (own qualified : String) (e : Element) :
    assign path own qualified e = ⟨path, own, qualified, e.kind⟩ ::
      ((e.children.flatMap Element.stepsOf).zip (childNames e.children)).flatMap
        (nestedNames path qualified) := by
  obtain ⟨kind, id, idRange, range, properties, references, children⟩ := e
  rw [assign, assignAll_eq path qualified (length_childNames children).ge]

/-- All names of a tree lie within that of its root. -/
theorem isWithin_of_mem_assign {e : Element} {path : ElementPath} {own qualified : String}
    {name : ElementName} (hname : name ∈ assign path own qualified e) :
    IsWithin qualified name.qualified := by
  induction e using Element.nested_induction generalizing path own qualified with
  | step e ih =>
      rw [assign_eq] at hname
      rcases List.mem_cons.mp hname with rfl | hname
      · exact IsWithin.refl qualified
      · obtain ⟨x, hx, hname⟩ := List.mem_flatMap.mp hname
        obtain ⟨c, hc, hchild⟩ := List.mem_flatMap.mp (List.of_mem_zip hx).1
        exact (ih c hc x.1.2 (step_of_mem_stepsOf hchild).2 hname).of_nested

/-- All qualified names of a tree are different. -/
theorem nodup_assign {e : Element} (h : e.IsNameable) (path : ElementPath)
    (own qualified : String) : ((assign path own qualified e).map (·.qualified)).Nodup := by
  induction h generalizing path own qualified with
  | @intro e hnodup hfeatures hids hnested ih =>
      obtain ⟨hnames, hdots⟩ := nodup_childNames (.intro hnodup hfeatures hids hnested)
      have hplaces : ∀ {x}, x ∈ (e.children.flatMap Element.stepsOf).zip
          (childNames e.children) → ∃ c ∈ e.children, x.1.2 ∈ c.elements := by
        intro x hx
        obtain ⟨c, hc, hchild⟩ := List.mem_flatMap.mp (List.of_mem_zip hx).1
        exact ⟨c, hc, (step_of_mem_stepsOf hchild).2⟩
      rw [assign_eq, List.map_cons, List.map_flatMap, List.nodup_cons, List.nodup_flatMap]
      refine ⟨fun hmem => ?_, fun x hx => ?_, ?_⟩
      · -- what is nested has a longer name
        obtain ⟨x, -, hmem⟩ := List.mem_flatMap.mp hmem
        obtain ⟨name, hname, heq⟩ := List.mem_map.mp hmem
        obtain ⟨rest, hrest, -⟩ := (isWithin_of_mem_assign hname).exists_nested
        exact nested_ne qualified rest (hrest.symm.trans heq)
      · obtain ⟨c, hc, hchild⟩ := hplaces hx
        exact ih c hc x.1.2 hchild _ _ _
      · -- siblings have names below different segments
        have hpairs : ((e.children.flatMap Element.stepsOf).zip (childNames e.children)).Pairwise
            fun x y => x.2 ≠ y.2 := by
          refine List.pairwise_map.mp ?_
          rw [List.map_snd_zip (length_childNames e.children).le]
          exact hnames
        refine hpairs.imp_of_mem fun {x y} hx hy hne => ?_
        refine List.disjoint_left.mpr fun qualifiedName hleft hright => hne ?_
        obtain ⟨name, hname, rfl⟩ := List.mem_map.mp hleft
        obtain ⟨other, hother, heq⟩ := List.mem_map.mp hright
        have hwithin := isWithin_of_mem_assign hother
        rw [heq] at hwithin
        exact eq_of_isWithin_nested (isWithin_of_mem_assign hname) hwithin
          (hdots x.2 (List.of_mem_zip hx).2) (hdots y.2 (List.of_mem_zip hy).2)

end Name

/-! ## Trees of documents -/

theorem ElementKind.isPlain_feature {kind : ElementKind} {feature : String}
    (h : (kind.containment? feature).isSome = true) : Name.IsPlain feature := by
  have hall : ∀ spec ∈ kind.containments, Name.IsPlain spec.feature := by
    cases kind <;> decide
  obtain ⟨spec, hspec⟩ := Option.isSome_iff_exists.mp h
  have hfeature : spec.feature = feature := by simpa using List.find?_some hspec
  rw [← hfeature]
  exact hall spec (List.mem_of_find?_eq_some hspec)

/-- A tree that fits the schema and declares plain identifiers is nameable. -/
theorem Element.HasDistinctFeatures.isNameable {e : Element} (h : e.HasDistinctFeatures)
    (hschema : e.FitsSchema) {path : ElementPath}
    (hids : ∀ described ∈ descendantsFrom path e, ∀ id, described.2.id = some id →
      Name.IsPlain id) : e.IsNameable := by
  induction h generalizing path with
  | @intro e hnodup hnested ih =>
      obtain ⟨hknown, hfits⟩ := hschema
      have hbelow : ∀ c ∈ e.children, ∀ child ∈ c.elements, ∃ path,
          ∀ described ∈ descendantsFrom path child, ∀ id, described.2.id = some id →
            Name.IsPlain id := by
        intro c hc child hchild
        obtain ⟨index, hindex⟩ := List.mem_iff_getElem?.mp hchild
        refine ⟨path.child c.feature index, fun described hmem => hids described ?_⟩
        exact mem_descendantsFrom_iff.mpr (Or.inr ⟨c, hc, index, child, hindex, hmem⟩)
      refine .intro hnodup (fun c hc => ElementKind.isPlain_feature (hknown c hc)) ?_ ?_
      · intro c hc child hchild
        obtain ⟨path, hall⟩ := hbelow c hc child hchild
        exact hall (path, child) (mem_descendantsFrom_iff.mpr (Or.inl rfl))
      · intro c hc child hchild
        obtain ⟨path, hall⟩ := hbelow c hc child hchild
        exact ih c hc child hchild (hfits c hc child hchild) hall

/-- A lowered tree that declares plain identifiers is nameable. -/
theorem Element.IsLowered.isNameable {root : Element} (h : root.IsLowered)
    (hids : ∀ described ∈ root.descendants, ∀ id, described.2.id = some id → Name.IsPlain id) :
    root.IsNameable :=
  h.distinct.isNameable h.fitsSchema hids

end ModelWorkspace
