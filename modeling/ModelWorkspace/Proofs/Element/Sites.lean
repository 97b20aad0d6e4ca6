import ModelWorkspace.Proofs.Element.Scalars
import ModelWorkspace.Proofs.Name.Containment

/-!
# References of an outline

Which references an element and everything nested in it make can be read off the members that it
is made of, without the element (`Lowering.membersSites`): lowering adds members one by one, and
each one adds its own references only (`Lowering.lowersSites`).  The references are named by
different scalars, so they stand apart (`Outline.apart_sites`).
-/

namespace ModelWorkspace

/-- The references that an element and everything nested in it make, each with the kind of the
element that makes it. -/
def Element.sites (e : Element) : List (ElementKind × ReferenceSite) :=
  e.descendants.flatMap fun described =>
    described.2.references.map fun site => (described.2.kind, site)

namespace Element

/-- The elements that are listed are the same whatever the path to the first one is. -/
theorem listed_descendantsFrom (path : ElementPath) (e : Element) :
    (descendantsFrom path e).map (·.2) =
      e :: e.children.flatMap fun c => c.elements.flatMap fun child =>
        child.descendants.map (·.2) := by
  induction e using Element.nested_induction generalizing path with
  | step e ih =>
      rw [descendantsFrom_eq, List.map_cons, List.map_flatMap, List.flatMap_assoc]
      refine congrArg (e :: ·) (List.flatMap_congr fun c hc => ?_)
      rw [stepsOf, List.flatMap_map]
      conv_rhs => rw [← List.zipIdx_map_fst 0 c.elements, List.flatMap_map]
      refine List.flatMap_congr fun x hx => ?_
      have hchild : x.1 ∈ c.elements := List.mem_of_getElem? (List.mem_zipIdx_iff_getElem?.mp hx)
      rw [descendants, ih c hc x.1 hchild, ih c hc x.1 hchild]

/-- The references of an element, and those of the elements nested in it. -/
theorem sites_eq (e : Element) :
    e.sites = e.references.map (fun site => (e.kind, site)) ++
      e.children.flatMap fun c => c.elements.flatMap sites := by
  have hlisted : ∀ e : Element, e.sites =
      (e.descendants.map (·.2)).flatMap fun e => e.references.map fun site => (e.kind, site) :=
    fun e => by rw [List.flatMap_map, sites]
  rw [hlisted, descendants, listed_descendantsFrom, List.flatMap_cons, List.flatMap_assoc]
  refine congrArg (_ ++ ·) (List.flatMap_congr fun c _ => ?_)
  rw [List.flatMap_assoc]
  exact List.flatMap_congr fun child _ => (hlisted child).symm

end Element

namespace Lowering

/-- The keys that are used up behind a member. -/
def usedBy (seen : List String) : Member → List String
  | .item .. => seen
  | .property _ key _ _ _ _ => if key ∈ seen then seen else key :: seen

mutual

/-- The references that a member adds to an element of a kind, with those of the elements that
it nests in it; keys in `seen` are used up. -/
def memberSites (kind : ElementKind) (seen : List String) :
    Member → List (ElementKind × ReferenceSite)
  | .item .. => []
  | .property _ key _ value block members =>
    if key ∈ seen ∨ key = "id" ∧ kind.declaresId then []
    else
      match kind.containment? key with
      | some spec =>
        if spec.many then if value.isSome then [] else itemsSites spec.kind members
        else if block.isSome then membersSites spec.kind [] members
        else []
      | none =>
        match kind.reference? key with
        | some spec =>
          let scalars := referenceScalars value members
          (sitesOf spec (if spec.many then scalars else scalars.take 1)).map fun site => (kind, site)
        | none => []
termination_by structural m => m

/-- The references that members add to an element of a kind. -/
def membersSites (kind : ElementKind) (seen : List String) :
    List Member → List (ElementKind × ReferenceSite)
  | [] => []
  | m :: ms => memberSites kind seen m ++ membersSites kind (usedBy seen m) ms
termination_by structural ms => ms

/-- The references of the element that an item holds. -/
def itemSites (kind : ElementKind) : Member → List (ElementKind × ReferenceSite)
  | .property .. => []
  | .item _ value members => if value.isSome then [] else membersSites kind [] members
termination_by structural m => m

/-- The references of the elements that items hold. -/
def itemsSites (kind : ElementKind) : List Member → List (ElementKind × ReferenceSite)
  | [] => []
  | m :: ms => itemSites kind m ++ itemsSites kind ms
termination_by structural ms => ms

end

/-- Adding a member adds its references. -/
structure LowersSites (m : Member) : Prop where
  addMember : ∀ e seen, (addMember e seen m).1.kind = e.kind ∧
    (addMember e seen m).2.1 = usedBy seen m ∧
    (addMember e seen m).1.sites.Perm (e.sites ++ memberSites e.kind seen m)
  itemElement : ∀ kind, ((itemElement kind m).1.flatMap Element.sites).Perm (itemSites kind m)

theorem sites_addMembers {ms : List Member} (hms : ∀ m ∈ ms, LowersSites m) (e : Element)
    (seen : List String) :
    (addMembers e seen ms).1.sites.Perm (e.sites ++ membersSites e.kind seen ms) := by
  induction ms generalizing e seen with
  | nil =>
      rw [membersSites, List.append_nil]
      rfl
  | cons m rest ih =>
      obtain ⟨hm, hrest⟩ := List.forall_mem_cons.mp hms
      obtain ⟨hkind, hused, hsites⟩ := hm.addMember e seen
      have hothers := ih hrest (addMember e seen m).1 (addMember e seen m).2.1
      rw [addMembers, membersSites, ← List.append_assoc]
      refine hothers.trans ?_
      rw [hkind, hused]
      exact hsites.append_right _

theorem sites_start (kind : ElementKind) (range : TextRange) :
    Element.sites { kind := kind, range := range } = [] := by
  rw [Element.sites_eq]
  rfl

theorem sites_block {ms : List Member} (hms : ∀ m ∈ ms, LowersSites m) (kind : ElementKind)
    (range : TextRange) :
    (addMembers { kind := kind, range := range } [] ms).1.sites.Perm (membersSites kind [] ms) := by
  have hmembers := sites_addMembers hms { kind := kind, range := range } []
  rwa [sites_start] at hmembers

theorem sites_itemElements {ms : List Member} (hms : ∀ m ∈ ms, LowersSites m)
    (kind : ElementKind) :
    ((itemElements kind ms).1.flatMap Element.sites).Perm (itemsSites kind ms) := by
  induction ms with
  | nil => exact .refl _
  | cons m rest ih =>
      obtain ⟨hm, hrest⟩ := List.forall_mem_cons.mp hms
      rw [itemElements, itemsSites, List.flatMap_append]
      exact (hm.itemElement kind).append (ih hrest)

theorem sites_congr {e other : Element} (h : other.kind = e.kind ∧
    other.references = e.references ∧ other.children = e.children) : other.sites = e.sites := by
  obtain ⟨hkind, hreferences, hchildren⟩ := h
  rw [Element.sites_eq, Element.sites_eq, hkind, hreferences, hchildren]

theorem sites_addReferences (e : Element) (sites : List ReferenceSite) :
    (Element.sites { e with references := e.references ++ sites }).Perm
      (e.sites ++ sites.map fun site => (e.kind, site)) := by
  rw [Element.sites_eq, Element.sites_eq, List.map_append, List.append_assoc, List.append_assoc]
  exact List.perm_append_comm.append_left _

theorem sites_addContainment (e : Element) (feature : String) (elements : List Element) :
    Element.sites { e with children := e.children ++ [⟨feature, elements⟩] } =
      e.sites ++ elements.flatMap Element.sites := by
  rw [Element.sites_eq, Element.sites_eq, List.flatMap_append, List.append_assoc]
  simp

/-- The references of what is nested under a feature are those of its items, or of its block. -/
theorem Nests.sites {spec : ContainmentSpec} {range : TextRange} {entry : Entry}
    {made : List Element × List SyntaxError} (h : Nests spec range entry made)
    (hmembers : ∀ m ∈ entry.members, LowersSites m) :
    (made.1.flatMap Element.sites).Perm
      (if spec.many then if entry.value.isSome then [] else itemsSites spec.kind entry.members
      else if entry.block.isSome then membersSites spec.kind [] entry.members
      else []) := by
  cases h with
  | noList many valued =>
      rw [if_pos many, ← isNone_listReports, valued]
      exact .refl _
  | list many listed =>
      rw [if_pos many, ← isNone_listReports, listed]
      exact sites_itemElements hmembers spec.kind
  | block single written =>
      rw [if_neg (by simp [single]), written, List.flatMap_singleton]
      exact sites_block hmembers spec.kind range
  | noBlock single missing =>
      rw [if_neg (by simp [single]), missing]
      exact .refl _

theorem lowersSites (m : Member) : LowersSites m := by
  induction m using Member.nested_induction with
  | item range value members ih =>
      refine ⟨fun e seen => ⟨rfl, rfl, ?_⟩, fun kind => ?_⟩
      · rw [memberSites, List.append_nil]
        rfl
      · cases value with
        | some v => exact .refl _
        | none =>
            rw [itemElement, List.flatMap_singleton]
            exact sites_block ih kind range
  | property range key keyRange value block members ih =>
      refine ⟨fun e seen => ?_, fun kind => .refl _⟩
      have hnothing : ∀ {other : Element}, other.kind = e.kind ∧ other.references = e.references ∧
          other.children = e.children → other.sites.Perm (e.sites ++ []) := fun h => by
        rw [sites_congr h, List.append_nil]
      obtain ⟨added, hadded, hadds⟩ := exists_adds e seen range key keyRange value block members
      rw [hadded, memberSites, usedBy]
      cases hadds with
      | again used =>
          rw [if_pos used, if_pos (.inl used)]
          exact ⟨rfl, rfl, hnothing ⟨rfl, rfl, rfl⟩⟩
      | identifies new declares =>
          rw [if_neg new, if_pos (.inr declares)]
          have hshape := shape_declareId e ⟨key, keyRange, value, block, members⟩
          exact ⟨hshape.1, rfl, hnothing hshape⟩
      | contains new other known nests =>
          rw [if_neg new, if_neg (not_or_intro new other), known]
          refine ⟨rfl, rfl, ?_⟩
          rw [sites_addContainment]
          exact (nests.sites ih).append_left _
      | refers new other nothingNested known =>
          rw [if_neg new, if_neg (not_or_intro new other), nothingNested, known]
          exact ⟨rfl, rfl, sites_addReferences e _⟩
      | plain new other nothingNested noReference =>
          rw [if_neg new, if_neg (not_or_intro new other), nothingNested, noReference]
          have hshape := shape_addPlain e ⟨key, keyRange, value, block, members⟩
          exact ⟨hshape.1, rfl, hnothing hshape⟩

/-- The references of the root that members are lowered to, with all that is nested in it. -/
def rootSites : List Member → List (ElementKind × ReferenceSite)
  | [] => []
  | .item .. :: ms => rootSites ms
  | .property _ key _ _ block members :: _ =>
    match ElementKind.ofRootKey? key with
    | none => []
    | some kind => if block.isSome then membersSites kind [] members else []

theorem sites_root {ms : List Member} {e : Element} (h : (root ms).1 = some e) :
    e.sites.Perm (rootSites ms) := by
  induction ms with
  | nil => cases h
  | cons m rest ih =>
      cases m with
      | item range value members => exact ih h
      | property range key keyRange value block members =>
          rw [root] at h
          rw [rootSites]
          cases hkind : ElementKind.ofRootKey? key with
          | none =>
              rw [hkind] at h
              cases h
          | some kind =>
              rw [hkind] at h
              cases block with
              | none =>
                  cases h
                  rw [sites_start]
                  exact .refl _
              | some b =>
                  cases h
                  exact sites_block (fun m _ => lowersSites m) kind range

/-! ## References and scalars -/

theorem ranges_sitesOf (spec : ReferenceSpec) (scalars : List Scalar) :
    (sitesOf spec scalars).map (·.range) = scalars.map (·.range) := by
  rw [sitesOf, List.map_map]
  conv_rhs => rw [← List.zipIdx_map_fst 0 scalars, List.map_map]
  rfl

/-- References are named by the scalars that count, in order. -/
theorem namedSites_sublist (kind : ElementKind) (spec : ReferenceSpec) (scalars : List Scalar) :
    (((sitesOf spec (if spec.many then scalars else scalars.take 1)).map
      fun site => (kind, site)).map (·.2.range)).Sublist (scalars.map (·.range)) := by
  have hranges := fun scalars => ranges_sitesOf spec scalars
  rw [List.map_map]
  split
  · exact (hranges _).symm ▸ .refl _
  · exact (hranges _).symm ▸ (List.take_sublist 1 _).map _

theorem referenceScalars_sublist (value : Option Value) (members : List Member) :
    (referenceScalars value members).Sublist
      ((value.map Value.scalars).getD [] ++ Member.allScalars members) := by
  cases value with
  | some v => exact List.sublist_append_left _ _
  | none =>
      rw [referenceScalars, Option.map_none, Option.getD_none, List.nil_append]
      induction members with
      | nil => exact .slnil
      | cons m rest ih =>
          rw [List.flatMap_cons, Member.allScalars]
          refine List.Sublist.append ?_ ih
          cases m with
          | property => exact List.nil_sublist _
          | item range value members =>
              cases value with
              | none => exact List.nil_sublist _
              | some v => exact List.sublist_append_left _ _

/-- The references of a member are named by scalars of it, in order. -/
structure NamedInOrder (m : Member) : Prop where
  member : ∀ kind seen, ((memberSites kind seen m).map (·.2.range)).Sublist
    (m.scalars.map (·.range))
  item : ∀ kind, ((itemSites kind m).map (·.2.range)).Sublist (m.scalars.map (·.range))

theorem membersSites_sublist {ms : List Member} (hms : ∀ m ∈ ms, NamedInOrder m)
    (kind : ElementKind) (seen : List String) :
    ((membersSites kind seen ms).map (·.2.range)).Sublist
      ((Member.allScalars ms).map (·.range)) := by
  induction ms generalizing seen with
  | nil => exact .slnil
  | cons m rest ih =>
      obtain ⟨hm, hrest⟩ := List.forall_mem_cons.mp hms
      rw [membersSites, Member.allScalars, List.map_append, List.map_append]
      exact (hm.member kind seen).append (ih hrest _)

theorem itemsSites_sublist {ms : List Member} (hms : ∀ m ∈ ms, NamedInOrder m)
    (kind : ElementKind) :
    ((itemsSites kind ms).map (·.2.range)).Sublist ((Member.allScalars ms).map (·.range)) := by
  induction ms with
  | nil => exact .slnil
  | cons m rest ih =>
      obtain ⟨hm, hrest⟩ := List.forall_mem_cons.mp hms
      rw [itemsSites, Member.allScalars, List.map_append, List.map_append]
      exact (hm.item kind).append (ih hrest)

theorem namedInOrder (m : Member) : NamedInOrder m := by
  induction m using Member.nested_induction with
  | item range value members ih =>
      refine ⟨fun _ _ => List.nil_sublist _, fun kind => ?_⟩
      rw [itemSites, Member.scalars]
      split
      · exact List.nil_sublist _
      · rw [List.map_append]
        exact (membersSites_sublist ih kind []).trans (List.sublist_append_right _ _)
  | property range key keyRange value block members ih =>
      refine ⟨fun kind seen => ?_, fun _ => List.nil_sublist _⟩
      have hnested : ∀ {sites : List TextRange},
          sites.Sublist ((Member.allScalars members).map (·.range)) → sites.Sublist
            (((value.map Value.scalars).getD [] ++ Member.allScalars members).map (·.range)) := by
        intro sites h
        rw [List.map_append]
        exact h.trans (List.sublist_append_right _ _)
      rw [memberSites, Member.scalars]
      split
      · exact List.nil_sublist _
      split
      · split
        · split
          · exact List.nil_sublist _
          · exact hnested (itemsSites_sublist ih _)
        · split
          · exact hnested (membersSites_sublist ih _ [])
          · exact List.nil_sublist _
      · split
        · rename_i spec _
          exact (namedSites_sublist kind spec _).trans
            ((referenceScalars_sublist value members).map (·.range))
        · exact List.nil_sublist _

theorem rootSites_sublist (ms : List Member) :
    ((rootSites ms).map (·.2.range)).Sublist ((Member.allScalars ms).map (·.range)) := by
  induction ms with
  | nil => exact .slnil
  | cons m rest ih =>
      rw [Member.allScalars, List.map_append]
      cases m with
      | item => exact ih.trans (List.sublist_append_right _ _)
      | property range key keyRange value block members =>
          have hmembers := fun kind =>
            membersSites_sublist (fun m (_ : m ∈ members) => namedInOrder m) kind []
          rw [rootSites, Member.scalars, List.map_append, List.append_assoc]
          split
          · exact List.nil_sublist _
          · split
            · exact ((hmembers _).trans (List.sublist_append_left _ _)).trans
                (List.sublist_append_right _ _)
            · exact List.nil_sublist _

end Lowering

/-! ## Documents -/

/-- Two ranges do not even touch. -/
def TextRange.Apart (a b : TextRange) : Prop :=
  a.stop < b.start ∨ b.stop < a.start

theorem TextRange.Apart.symm {a b : TextRange} (h : a.Apart b) : b.Apart a :=
  Or.symm h

/-- The scalars of an outline stand apart. -/
theorem Outline.scattered_ofText (completion : Bool) (text : String) :
    ∃ outer : TextRange, outer.Scattered
      ((Member.allScalars (ofTree (Parse.ofText completion text).tree)).map (·.range)) := by
  have hnested : ∀ m ∈ ofTree (Parse.ofText completion text).tree, m.Nested := nested_members 0 _
  exact ⟨_, Member.scattered_allScalars (spread_members 0 _) fun m hm =>
    (spaced_ofText completion text m hm).scattered (hnested m hm)⟩

/-- However broken a text is, the references of the root that is made of it are not empty and
stand apart. -/
theorem Outline.apart_sites {completion : Bool} {text : String} {root : Element}
    (h : (Lowering.root (ofTree (Parse.ofText completion text).tree)).1 = some root) :
    (∀ s ∈ root.sites, s.2.range.start < s.2.range.stop) ∧
      root.sites.Pairwise fun a b => a.2.range.Apart b.2.range := by
  obtain ⟨outer, hinside, hapart⟩ := scattered_ofText completion text
  have hperm := Lowering.sites_root h
  have hsublist := Lowering.rootSites_sublist (ofTree (Parse.ofText completion text).tree)
  constructor
  · intro s hs
    exact (hinside _ (hsublist.subset (List.mem_map_of_mem (hperm.mem_iff.mp hs)))).2.1
  · refine (hperm.pairwise_iff fun h => h.symm).mpr (List.pairwise_map.mp ?_)
    exact (hapart.sublist hsublist).imp .inl

end ModelWorkspace
