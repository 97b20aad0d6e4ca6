import ModelWorkspace.Name.Assignment
import ModelWorkspace.Proofs.Text.LocationMap

/-!
# Paths lead to the elements they were taken from

An element that writes each feature once, and so do all elements nested in it, can be
walked: every path under which `descendants` lists an element leads to that element
(`walk_of_mem_descendants`).  Names are given to the listed paths, one each and in the
same order (`map_assign`), so every name leads to an element of its kind.
-/

namespace ModelWorkspace

/-- Induction on an element, with the hypothesis for all elements directly nested in it. -/
@[elab_as_elim]
theorem Element.nested_induction {motive : Element → Prop}
    (step : ∀ e : Element, (∀ c ∈ e.children, ∀ child ∈ c.elements, motive child) → motive e)
    (e : Element) : motive e :=
  @Element.rec motive
    (fun cs => ∀ c ∈ cs, ∀ child ∈ c.elements, motive child)
    (fun c => ∀ child ∈ c.elements, motive child)
    (fun es => ∀ child ∈ es, motive child)
    (fun _ _ _ _ _ _ _ ih => step _ ih)
    (fun _ hc => absurd hc List.not_mem_nil)
    (fun _ _ hhead htail => List.forall_mem_cons.mpr ⟨hhead, htail⟩)
    (fun _ _ ih => ih)
    (fun _ hchild => absurd hchild List.not_mem_nil)
    (fun _ _ hhead htail => List.forall_mem_cons.mpr ⟨hhead, htail⟩) e

namespace Element

/-- Every feature is written once, also in the elements nested in this one. -/
inductive HasDistinctFeatures : Element → Prop
  | intro {e : Element} (nodup : (e.children.map (·.feature)).Nodup)
      (nested : ∀ c ∈ e.children, ∀ child ∈ c.elements, HasDistinctFeatures child) :
      HasDistinctFeatures e

/-! ## What is listed -/

theorem descendantsOfList_eq (path : ElementPath) (feature : String) (index : Nat)
    (es : List Element) :
    descendantsOfList path feature index es =
      (es.zipIdx index).flatMap fun x => descendantsFrom (path.child feature x.2) x.1 := by
  induction es generalizing index with
  | nil => rfl
  | cons e rest ih =>
      rw [List.zipIdx_cons, List.flatMap_cons, ← ih]
      rfl

theorem descendantsOfAll_eq (path : ElementPath) (cs : List (Containment Element)) :
    descendantsOfAll path cs =
      cs.flatMap fun c => descendantsOfList path c.feature 0 c.elements := by
  induction cs with
  | nil => rfl
  | cons c rest ih =>
      obtain ⟨feature, elements⟩ := c
      rw [List.flatMap_cons, ← ih, descendantsOfAll, descendantsOfOne]

theorem mem_descendantsFrom_iff {path : ElementPath} {e : Element}
    {described : ElementPath × Element} :
    described ∈ descendantsFrom path e ↔
      described = (path, e) ∨
        ∃ c ∈ e.children, ∃ index child, c.elements[index]? = some child ∧
          described ∈ descendantsFrom (path.child c.feature index) child := by
  have hunfold : descendantsFrom path e = (path, e) :: descendantsOfAll path e.children := by
    cases e
    rw [descendantsFrom]
  rw [hunfold, List.mem_cons, descendantsOfAll_eq, List.mem_flatMap]
  refine or_congr_right (exists_congr fun c => and_congr_right fun _ => ?_)
  rw [descendantsOfList_eq, List.mem_flatMap]
  constructor
  · rintro ⟨⟨child, index⟩, hmem, hdescribed⟩
    exact ⟨index, child, List.mem_zipIdx_iff_getElem?.mp hmem, hdescribed⟩
  · rintro ⟨index, child, hget, hdescribed⟩
    exact ⟨(child, index), List.mem_zipIdx_iff_getElem?.mpr hget, hdescribed⟩

/-- The path of what is listed goes on from that of the element. -/
theorem exists_rest_of_mem_descendantsFrom {e : Element} {path : ElementPath}
    {described : ElementPath × Element} (h : described ∈ descendantsFrom path e) :
    ∃ rest, described.1 = path ++ rest := by
  induction e using Element.nested_induction generalizing path with
  | step e ih =>
      rcases mem_descendantsFrom_iff.mp h with rfl | ⟨c, hc, index, child, hget, hbelow⟩
      · exact ⟨[], (List.append_nil path).symm⟩
      · obtain ⟨rest, hrest⟩ := ih c hc child (List.mem_of_getElem? hget) hbelow
        exact ⟨_, hrest.trans (List.append_assoc _ _ _)⟩

theorem exists_rest_of_mem_step {child : Element} {path : ElementPath} {step : PathStep}
    {described : ElementPath × Element}
    (h : described ∈ descendantsFrom (path.child step.feature step.index) child) :
    ∃ rest, described.1 = path ++ step :: rest := by
  obtain ⟨rest, hrest⟩ := exists_rest_of_mem_descendantsFrom h
  exact ⟨rest, hrest.trans (List.append_assoc _ _ _)⟩

/-! ## Walking -/

theorem containment?_of_mem {e : Element} (h : (e.children.map (·.feature)).Nodup)
    {c : Containment Element} (hc : c ∈ e.children) : e.containment? c.feature = some c := by
  unfold containment?
  cases hfind : e.children.find? (·.feature == c.feature) with
  | none =>
      have := List.find?_eq_none.mp hfind c hc
      simp at this
  | some other =>
      have hfeature : other.feature = c.feature := by simpa using List.find?_some hfind
      rw [List.inj_on_of_nodup_map h (List.mem_of_find?_eq_some hfind) hc hfeature]

theorem walk_cons {e child : Element} {c : Containment Element} {index : Nat}
    {path : ElementPath} (hc : e.containment? c.feature = some c)
    (hchild : c.elements[index]? = some child) :
    e.walk (⟨c.feature, index⟩ :: path) = child.walk path := by
  rw [walk]
  dsimp only
  rw [hc]
  dsimp only
  rw [hchild]

theorem exists_walk_of_mem_descendantsFrom {e : Element} (h : e.HasDistinctFeatures)
    {path : ElementPath} {described : ElementPath × Element}
    (hmem : described ∈ descendantsFrom path e) :
    ∃ rest, described.1 = path ++ rest ∧ e.walk rest = some described.2 := by
  induction h generalizing path with
  | intro hnodup _ ih =>
      rcases mem_descendantsFrom_iff.mp hmem with rfl | ⟨c, hc, index, child, hget, hbelow⟩
      · exact ⟨[], (List.append_nil path).symm, rfl⟩
      · obtain ⟨rest, hpath, hwalk⟩ := ih c hc child (List.mem_of_getElem? hget) hbelow
        refine ⟨⟨c.feature, index⟩ :: rest, ?_, ?_⟩
        · rw [hpath, ElementPath.child, List.append_assoc]
          rfl
        · rw [walk_cons (containment?_of_mem hnodup hc) hget]
          exact hwalk

/-- Every listed path leads to the element it is listed with. -/
theorem walk_of_mem_descendants {e : Element} (h : e.HasDistinctFeatures)
    {described : ElementPath × Element} (hmem : described ∈ e.descendants) :
    e.walk described.1 = some described.2 := by
  obtain ⟨rest, hpath, hwalk⟩ := exists_walk_of_mem_descendantsFrom h hmem
  rw [hpath]
  exact hwalk

end Element

/-! ## Names -/

namespace Name

/-- Names are given to the paths that are listed, and have the kinds of what is there. -/
theorem map_assign (e : Element) (path : ElementPath) (own qualified : String) :
    (assign path own qualified e).map (fun name => (name.path, name.kind)) =
      (Element.descendantsFrom path e).map fun described => (described.1, described.2.kind) := by
  induction e using Element.nested_induction generalizing path own qualified with
  | step e ih =>
      -- the names of nested elements are handed down the lists of containments and elements
      have hlist : ∀ (feature : String) (es : List Element),
          (∀ child ∈ es, ∀ path own qualified,
            (assign path own qualified child).map (fun name => (name.path, name.kind)) =
              (Element.descendantsFrom path child).map fun d => (d.1, d.2.kind)) →
          ∀ index names,
            (assignList path qualified feature index names es).map
                (fun name => (name.path, name.kind)) =
              (Element.descendantsOfList path feature index es).map
                fun d => (d.1, d.2.kind) := by
        intro feature es hes
        induction es with
        | nil => intro index names; rfl
        | cons child rest ihrest =>
            intro index names
            obtain ⟨hchild, hrest⟩ := List.forall_mem_cons.mp hes
            rw [assignList, Element.descendantsOfList, List.map_append, List.map_append,
              hchild, ihrest hrest]
      have hall : ∀ cs : List (Containment Element), (∀ c ∈ cs, c ∈ e.children) → ∀ names,
          (assignAll path qualified names cs).map (fun name => (name.path, name.kind)) =
            (Element.descendantsOfAll path cs).map fun d => (d.1, d.2.kind) := by
        intro cs hcs
        induction cs with
        | nil => intro names; rfl
        | cons c rest ihrest =>
            intro names
            obtain ⟨hc, hrest⟩ := List.forall_mem_cons.mp hcs
            rw [assignAll, Element.descendantsOfAll, List.map_append, List.map_append,
              ihrest hrest]
            congr 1
            obtain ⟨feature, elements⟩ := c
            rw [assignOne, Element.descendantsOfOne]
            exact hlist feature elements (ih ⟨feature, elements⟩ hc) 0 names
      obtain ⟨kind, id, idRange, range, properties, references, children⟩ := e
      rw [assign, Element.descendantsFrom, List.map_cons, List.map_cons,
        hall children (fun c hc => hc)]

end Name

/-- Every name leads to an element of its kind. -/
theorem Naming.exists_walk {root : Element} (h : root.HasDistinctFeatures) {rootName : String}
    {name : ElementName} (hname : name ∈ (Naming.withRootName root rootName).names) :
    ∃ e, root.walk name.path = some e ∧ e.kind = name.kind := by
  have hmem : (name.path, name.kind) ∈
      root.descendants.map fun described => (described.1, described.2.kind) := by
    rw [Element.descendants, ← Name.map_assign root ElementPath.root rootName rootName]
    exact List.mem_map_of_mem hname
  obtain ⟨described, hdescribed, heq⟩ := List.mem_map.mp hmem
  obtain ⟨hpath, hkind⟩ := Prod.mk.inj heq
  refine ⟨described.2, ?_, hkind⟩
  rw [← hpath]
  exact Element.walk_of_mem_descendants h hdescribed

end ModelWorkspace
