import ModelWorkspace.Proofs.Element.Conformance
import ModelWorkspace.Proofs.Index.Members
import ModelWorkspace.Proofs.Link.Anchors
import ModelWorkspace.Proofs.Link.Widening

/-!
# Members belong to the entities that are linked

Three rules look for members of an entity: anchored references, references of the form
`object.member`, and the members that elements show.  The first and the last read from the
links so far what an element refers to, and the second one resolves the name again.  All three
mean the same entity: that to which the element is linked in the end (`link_membersAgree`).

References that name an entity are read as names, and a name means the same whatever has been
linked before; so the order in which a file is written plays no role.  And a member is found
by its name in the unit of the entity, but its kind tells that it lies directly below it.
-/

namespace ModelWorkspace

/-! ## What the schema says of members -/

namespace ElementKind

variable {kind : ElementKind} {property : String} {spec : ReferenceSpec}

/-- Anchors and qualifiers lead to attributes of entities. -/
theorem target_of_anchor_or_qualifier (h : kind.reference? property = some spec)
    (hmember : spec.anchor.isSome = true ∨ spec.qualifier.isSome = true) :
    spec.target = .entityAttribute := by
  have hall : ∀ spec ∈ kind.references,
      spec.anchor.isSome = true ∨ spec.qualifier.isSome = true →
        spec.target = .entityAttribute := by
    cases kind <;> decide
  exact hall spec (List.mem_of_find?_eq_some h) hmember

/-- Roots have no anchors. -/
theorem anchor_of_isRoot (hroot : kind.isRoot = true) (h : kind.reference? property = some spec) :
    spec.anchor = none := by
  have hall : ∀ spec ∈ kind.references, spec.anchor = none := by
    revert hroot
    cases kind <;> decide
  exact hall spec (List.mem_of_find?_eq_some h)

/-- Elements that show members name the entity that has them, and nothing else. -/
theorem references_of_derivesMembers (h : kind.derivesMembers = true) :
    ∃ named, kind.references = [named] ∧ named.property = "entity" ∧ named.NamesEntity := by
  revert h
  cases kind <;> simp [derivesMembers, references, ReferenceSpec.NamesEntity]

theorem reference?_of_derivesMembers (h : kind.derivesMembers = true) :
    ∃ named, kind.reference? "entity" = some named ∧ named.NamesEntity := by
  obtain ⟨named, hreferences, hproperty, hnames⟩ := references_of_derivesMembers h
  refine ⟨named, ?_, hnames⟩
  unfold reference?
  rw [hreferences, List.find?_singleton, hproperty]
  rfl

/-- The objects before a dot are such elements. -/
theorem derivesMembers_of_qualifier {container : ElementKind} {feature : String}
    {nested : ContainmentSpec} (h : kind.reference? property = some spec)
    (hqualifier : spec.qualifier = some feature)
    (hnested : container.containment? feature = some nested) :
    nested.kind.derivesMembers = true := by
  have hfeature : ∀ spec ∈ kind.references, ∀ feature ∈ spec.qualifier, feature = "sources" := by
    cases kind <;> decide
  have hkind : ∀ nested ∈ container.containments, nested.feature = "sources" →
      nested.kind.derivesMembers = true := by
    cases container <;> decide
  have hname : nested.feature = feature := by simpa using List.find?_some hnested
  exact hkind nested (List.mem_of_find?_eq_some hnested)
    (hname.trans (hfeature spec (List.mem_of_find?_eq_some h) feature hqualifier))

end ElementKind

namespace Element

/-- An element that shows members makes no other reference than that to their entity. -/
theorem Conforms.referencesOf_entity {e : Element} (h : e.Conforms)
    (hderives : e.kind.derivesMembers = true) :
    e.references.find? (·.target == .entity) = (e.referencesOf "entity").head? := by
  obtain ⟨named, hreferences, hproperty, hentity, -⟩ :=
    ElementKind.references_of_derivesMembers hderives
  have hall : ∀ site ∈ e.references, site.property = "entity" ∧ site.target = .entity := by
    intro site hsite
    obtain ⟨spec, hspec, htarget⟩ := h.targeted site hsite
    have hmem := List.mem_of_find?_eq_some hspec
    rw [hreferences, List.mem_singleton] at hmem
    have hname : spec.property = site.property := by simpa using List.find?_some hspec
    rw [← hname, htarget, hmem]
    exact ⟨hproperty, hentity⟩
  have hsame : e.referencesOf "entity" = e.references :=
    List.filter_eq_self.mpr fun site hsite => beq_iff_eq.mpr (hall site hsite).1
  rw [hsame]
  cases hsites : e.references with
  | nil => rfl
  | cons site rest =>
      have htarget := (hall site (by rw [hsites]; exact List.mem_cons_self)).2
      rw [List.find?_cons, htarget]
      rfl

/-- References to members expect attributes. -/
theorem Conforms.target_of_member {e : Element} (h : e.Conforms) {site : ReferenceSite}
    {spec : ReferenceSpec} (hspec : e.kind.reference? site.property = some spec)
    (hmember : spec.anchor.isSome = true ∨ spec.qualifier.isSome = true)
    (hsite : site ∈ e.references) : site.target = .entityAttribute := by
  obtain ⟨other, hother, htarget⟩ := h.targeted site hsite
  rw [htarget, ← Option.some.inj (hspec.symm.trans hother)]
  exact ElementKind.target_of_anchor_or_qualifier hspec hmember

end Element

/-- Every reference of a property of the element at a path is linked to the given entry, and
there is one. -/
def Links.LeadsTo (links : Links) (path : ElementPath) (property : String) (e : IndexEntry) :
    Prop :=
  (∃ r ∈ links.references, r.path = path ∧ r.site.property = property) ∧
    ∀ r ∈ links.references, r.path = path → r.site.property = property → r.target = some e

namespace Linker

variable {linker : Linker} {origin : Origin} {root element : Element} {links : Links}
  {path : ElementPath} {property : String} {owner : IndexEntry}

/-! ## Names and members -/

theorem mem_of_findLocal_eq_some {index : Index} {l : Location} {name : String} {e : IndexEntry}
    (h : index.findLocal l name = some e) : e ∈ index.entries := by
  obtain ⟨id, -, hget⟩ := List.mem_filterMap.mp (List.mem_of_find?_eq_some h)
  exact List.mem_of_find?_eq_some hget

/-- A name means an entry of the kind that is asked for. -/
theorem mem_of_resolveName {name : String} {kind : ElementKind} {e : IndexEntry}
    (h : linker.resolveName origin name kind = some e) :
    e ∈ linker.index.entries ∧ e.kind = kind := by
  have hlocal : ∀ {name}, (linker.index.findLocal origin.location name).filter
      (·.kind == kind) = some e → e ∈ linker.index.entries ∧ e.kind = kind := by
    intro name hfound
    rw [Option.filter_eq_some_iff, beq_iff_eq] at hfound
    exact ⟨mem_of_findLocal_eq_some hfound.1, hfound.2⟩
  unfold resolveName sameUnit? at h
  rw [Option.orElse_eq_or, Option.or_eq_some_iff, Option.orElse_eq_or, Option.or_eq_some_iff] at h
  rcases h with (h | ⟨-, h⟩) | ⟨-, h⟩
  · exact hlocal h
  · obtain ⟨root, -, h⟩ := Option.bind_eq_some_iff.mp h
    exact hlocal h
  · split at h
    · cases h
    · rw [Option.orElse_eq_or, Option.or_eq_some_iff] at h
      rcases h with h | ⟨-, h⟩
      · obtain ⟨id, -, h⟩ := List.exists_of_findSome?_eq_some h
        unfold inPackage? at h
        rw [Option.filter_eq_some_iff, beq_iff_eq] at h
        exact ⟨List.mem_of_find?_eq_some h.1, h.2⟩
      · unfold byGlobalId? at h
        rw [Option.filter_eq_some_iff, Bool.and_eq_true, beq_iff_eq] at h
        exact ⟨List.mem_of_find?_eq_some h.1, h.2.1⟩

/-- What is found as an attribute of an entity lies directly below it. -/
theorem container_of_resolveMember {packages : String → Prop} {trees : Element → Prop}
    (hindex : linker.index.OfTrees packages trees) (howner : owner ∈ linker.index.entries)
    (hentity : owner.kind = .entity) {name : String} {e : IndexEntry}
    (h : linker.resolveMember owner name .entityAttribute = some e) :
    e.container = some owner.globalId := by
  unfold resolveMember at h
  rw [Option.filter_eq_some_iff, beq_iff_eq] at h
  obtain ⟨hfound, hkind⟩ := h
  obtain ⟨hmem, hl, -⟩ := hindex.coherent.findLocal_eq_some_iff.mp hfound
  exact hindex.container_of_attribute howner hentity hmem hkind hl

/-! ## Links to entities -/

section Named

variable {named : ReferenceSpec}

/-- The link of a property that names one entity is what its reference means as a name. -/
theorem Knows.leadsTo_iff (h : linker.Knows origin root path element links)
    (hconforms : element.Conforms) (hnamed : element.kind.reference? property = some named)
    (hnames : named.NamesEntity) :
    links.LeadsTo path property owner ↔ ∃ site, (element.referencesOf property).head? = some site ∧
      linker.resolveName origin site.text site.target = some owner := by
  have hone : ∀ {site}, site ∈ element.referencesOf property →
      (element.referencesOf property).head? = some site := by
    intro site hsite
    have hsingle := hconforms.single property named hnamed hnames.2.1
    match hsites : element.referencesOf property with
    | [] => rw [hsites] at hsite; cases hsite
    | [only] => rw [hsites, List.mem_singleton] at hsite; rw [hsite]; rfl
    | _ :: _ :: _ => rw [hsites] at hsingle; simp at hsingle
  constructor
  · rintro ⟨⟨r, hr, hpath, hproperty⟩, hall⟩
    obtain ⟨hsite, htarget⟩ := h.target_eq (hnames.plain hnamed) hr hpath hproperty
    exact ⟨r.site, hone hsite, htarget.symm.trans (hall r hr hpath hproperty)⟩
  · rintro ⟨site, hsite, hmeans⟩
    obtain ⟨hmem, hproperty⟩ := List.mem_filter.mp (List.mem_of_head? hsite)
    refine ⟨?_, fun r hr hpath hsame => ?_⟩
    · obtain ⟨r, hr, hpath, heq⟩ := h.complete site hmem
      exact ⟨r, hr, hpath, by rw [heq, beq_iff_eq.mp hproperty]⟩
    · obtain ⟨hin, htarget⟩ := h.target_eq (hnames.plain hnamed) hr hpath hsame
      rw [htarget, Option.some.inj ((hone hin).symm.trans hsite), hmeans]

/-- It is an entity of the index. -/
theorem Knows.mem_of_leadsTo (h : linker.Knows origin root path element links)
    (hconforms : element.Conforms) (hnamed : element.kind.reference? property = some named)
    (hnames : named.NamesEntity) (howner : links.LeadsTo path property owner) :
    owner ∈ linker.index.entries ∧ owner.kind = .entity := by
  obtain ⟨site, hsite, hmeans⟩ := (h.leadsTo_iff hconforms hnamed hnames).mp howner
  obtain ⟨hmem, hproperty⟩ := List.mem_filter.mp (List.mem_of_head? hsite)
  obtain ⟨spec, hspec, htarget⟩ := hconforms.targeted site hmem
  rw [beq_iff_eq.mp hproperty, hnamed] at hspec
  rw [htarget, ← Option.some.inj hspec, hnames.1] at hmeans
  exact mem_of_resolveName hmeans

/-- The links tell it while they are made, too. -/
theorem Knows.targetOf?_eq_some_iff (h : linker.Knows origin root path element links)
    (hconforms : element.Conforms) (htyped : element.IsTyped)
    (hnamed : element.kind.reference? property = some named) (hnames : named.NamesEntity) :
    links.targetOf? path property = some owner ↔ links.LeadsTo path property owner := by
  rw [h.targetOf?_eq htyped (hnames.plain hnamed), h.leadsTo_iff hconforms hnamed hnames,
    Option.bind_eq_some_iff]

/-- Links that know the same element lead to the same entity. -/
theorem Knows.leadsTo_congr {others : Links} (h : linker.Knows origin root path element links)
    (h' : linker.Knows origin root path element others) (hconforms : element.Conforms)
    (hnamed : element.kind.reference? property = some named) (hnames : named.NamesEntity) :
    links.LeadsTo path property owner ↔ others.LeadsTo path property owner := by
  rw [h.leadsTo_iff hconforms hnamed hnames, h'.leadsTo_iff hconforms hnamed hnames]

end Named

/-! ## The links of a unit -/

/-- A reference of a unit means what is found for it when all that is written before it has been
linked. -/
theorem exists_split_of_mem_foldl_linkElement {described : List (ElementPath × Element)}
    {r : LinkedReference}
    (hr : r ∈ (described.foldl (linker.linkElement origin root) {}).references) :
    ∃ before element after sites later, described = before ++ (r.path, element) :: after ∧
      element.references = sites ++ r.site :: later ∧
      r.target = linker.resolveSite origin root
        (sites.foldl (linker.linkSite origin root r.path element.kind)
          (before.foldl (linker.linkElement origin root) {})) r.path element.kind r.site := by
  induction described using List.reverseRecOn with
  | nil => exact absurd hr List.not_mem_nil
  | append_singleton before d ih =>
      rw [List.foldl_append] at hr
      rcases exists_split_of_mem_foldl_linkSite hr with hold | ⟨hpath, sites, later, hsites, htarget⟩
      · obtain ⟨before', element, after, sites, later, hsplit, hsites, htarget⟩ := ih hold
        exact ⟨before', element, after ++ [d], sites, later, by rw [hsplit]; simp, hsites, htarget⟩
      · obtain ⟨place, element⟩ := d
        subst hpath
        exact ⟨before, element, [], sites, later, rfl, hsites, htarget⟩

theorem implicit_foldl_linkSite (kind : ElementKind) (sites : List ReferenceSite)
    (links : Links) :
    (sites.foldl (linker.linkSite origin root path kind) links).implicit = links.implicit := by
  induction sites generalizing links with
  | nil => rfl
  | cons site rest ih => exact ih _

theorem owner_of_mem_implicitMembers {kind : ElementKind} {m : ImplicitMember}
    (hm : m ∈ linker.implicitMembers links path kind) : m.owner = path := by
  unfold implicitMembers at hm
  split at hm
  · split at hm
    · obtain ⟨member, -, rfl⟩ := List.mem_map.mp hm
      rfl
    · exact absurd hm List.not_mem_nil
  · exact absurd hm List.not_mem_nil

/-- An element shows what its own references lead to. -/
theorem implicit_linkElement (links : Links) (d : ElementPath × Element) :
    (linker.linkElement origin root links d).implicit = links.implicit ++
      linker.implicitMembers (linker.linkElement origin root links d) d.1 d.2.kind := by
  show (d.2.references.foldl (linker.linkSite origin root d.1 d.2.kind) links).implicit ++ _ = _
  rw [implicit_foldl_linkSite]
  rfl

/-- Members that elements at other paths show do not matter at a path. -/
theorem implicit_foldl_linkElement {described : List (ElementPath × Element)}
    (h : ∀ d ∈ described, d.1 ≠ path) (links : Links) :
    (described.foldl (linker.linkElement origin root) links).implicit.filter (·.owner = path) =
      links.implicit.filter (·.owner = path) := by
  induction described generalizing links with
  | nil => rfl
  | cons d rest ih =>
      obtain ⟨hd, hrest⟩ := List.forall_mem_cons.mp h
      have hother : (linker.implicitMembers (linker.linkElement origin root links d) d.1
          d.2.kind).filter (·.owner = path) = [] :=
        List.filter_eq_nil_iff.mpr fun m hm => by
          rw [owner_of_mem_implicitMembers hm]
          simpa using hd
      rw [List.foldl_cons, ih hrest, implicit_linkElement, List.filter_append, hother,
        List.append_nil]

section Unit

variable {l : Location}

theorem knows_foldl_linkElement (linker : Linker) (origin : Origin) (hroot : root.IsLowered)
    {described : List (ElementPath × Element)} (hsub : described ⊆ root.descendants)
    (hmem : (path, element) ∈ described) :
    linker.Knows origin root path element
      (described.foldl (linker.linkElement origin root) {}) := by
  refine (linkedOf_foldl described).knows hmem fun d hd hpath => ?_
  have hwalk := Element.walk_of_mem_descendants hroot.distinct (hsub hd)
  have hwalk' := Element.walk_of_mem_descendants hroot.distinct (hsub hmem)
  rw [hpath, hwalk'] at hwalk
  exact (Option.some.inj hwalk).symm

/-- A reference of an element means what is found for it when all that is written before it has
been linked. -/
theorem exists_split_of_mem_link (hroot : root.IsLowered) {r : LinkedReference}
    (hr : r ∈ (linker.link l root).references) (hwalk : root.walk r.path = some element) :
    ∃ before after sites later, root.descendants = before ++ (r.path, element) :: after ∧
      element.references = sites ++ r.site :: later ∧
      r.target = linker.resolveSite (linker.origin l) root
        (sites.foldl (linker.linkSite (linker.origin l) root r.path element.kind)
          (before.foldl (linker.linkElement (linker.origin l) root) {})) r.path element.kind
        r.site := by
  obtain ⟨before, found, after, sites, later, hsplit, hsites, htarget⟩ :=
    exists_split_of_mem_foldl_linkElement hr
  have hlisted : (r.path, found) ∈ root.descendants := by
    rw [hsplit]
    exact List.mem_append_right _ List.mem_cons_self
  obtain rfl : found = element := Option.some.inj
    ((Element.walk_of_mem_descendants hroot.distinct hlisted).symm.trans hwalk)
  exact ⟨before, after, sites, later, hsplit, hsites, htarget⟩

/-- The root has no anchors, so an element with one is nested in another. -/
theorem exists_parent_of_anchor (hroot : root.IsLowered) (hwalk : root.walk path = some element)
    {property anchor : String} {spec : ReferenceSpec}
    (hspec : element.kind.reference? property = some spec) (hanchor : spec.anchor = some anchor) :
    ∃ parent, path.parent? = some parent := by
  unfold ElementPath.parent?
  split
  · rename_i hpath
    rw [hpath] at hwalk
    cases hwalk
    rw [ElementKind.anchor_of_isRoot hroot.isTyped.1 hspec] at hanchor
    cases hanchor
  · exact ⟨_, rfl⟩

/-- The first object with an identifier is found by it and at its place, and it derives
members. -/
theorem exists_object_of_findIdx? (hroot : root.IsLowered) {kind : ElementKind}
    {property feature head : String} {spec : ReferenceSpec}
    (hspec : kind.reference? property = some spec) (hqualifier : spec.qualifier = some feature)
    {objects : Containment Element} (hobjects : root.containment? feature = some objects) {i : Nat}
    (hfirst : objects.elements.findIdx? (·.id == some head) = some i) :
    ∃ object, objects.elements.find? (·.id == some head) = some object ∧
      root.walk (ElementPath.root.child feature i) = some object ∧
      object.kind.derivesMembers = true := by
  obtain ⟨hlt, hid, hothers⟩ := List.findIdx?_eq_some_iff_getElem.mp hfirst
  have hfeature : objects.feature = feature := by simpa using List.find?_some hobjects
  refine ⟨objects.elements[i], ?_, ?_, ?_⟩
  · exact List.find?_eq_some_iff_getElem.mpr
      ⟨hid, i, hlt, rfl, fun j hj => by simpa using hothers j hj⟩
  · show root.walk [⟨feature, i⟩] = _
    rw [← hfeature] at hobjects ⊢
    rw [Element.walk_cons hobjects (List.getElem?_eq_getElem hlt)]
    rfl
  · obtain ⟨-, hkinds, -⟩ := hroot.isTyped.2
    obtain ⟨nested, hnested, hkind⟩ := hkinds objects (List.mem_of_find?_eq_some hobjects) _
      (List.getElem_mem hlt)
    rw [hkind]
    exact ElementKind.derivesMembers_of_qualifier hspec hqualifier (hfeature ▸ hnested)

/-- Whatever has been linked of a unit, an anchor leads to the same entity as in the end. -/
theorem container_of_anchored (hroot : root.IsLowered) {packages : String → Prop}
    {trees : Element → Prop} (hindex : linker.index.OfTrees packages trees)
    {r : LinkedReference} (hr : r ∈ (linker.link l root).references)
    (hwalk : root.walk r.path = some element) {spec : ReferenceSpec} {anchor : String}
    (hspec : element.kind.reference? r.site.property = some spec)
    (hanchor : spec.anchor = some anchor) (hdot : '.' ∉ r.site.text.toList) :
    ∃ parent, r.path.parent? = some parent ∧ ∀ e, r.target = some e →
      ∃ owner, (linker.link l root).LeadsTo parent anchor owner ∧
        e.container = some owner.globalId := by
  obtain ⟨before, after, sites, later, hsplit, hsites, htarget⟩ :=
    exists_split_of_mem_link hroot hr hwalk
  obtain ⟨parent, hparent⟩ := exists_parent_of_anchor hroot hwalk hspec hanchor
  refine ⟨parent, hparent, fun e he => ?_⟩
  obtain ⟨container, named, hcontainer, hnamed, hnames⟩ :=
    hroot.isTyped.2.exists_anchor hwalk hparent hspec hanchor
  have hmem := Element.mem_descendants_of_walk hcontainer
  have hconforms := hroot.conforms _ hmem
  -- the element around it has been linked by then, and is not linked again
  have hbefore := mem_before_of_parent? hroot.distinct hsplit hparent hcontainer
  have hearlier := (knows_foldl_linkElement linker (linker.origin l) hroot
    (by rw [hsplit]; exact List.subset_append_left _ _) hbefore).foldl_linkSite
      (Ne.symm (ElementPath.prefix_of_parent? hparent).2) element.kind sites
  have hfinal := knows_foldl_linkElement linker (linker.origin l) hroot (List.Subset.refl _) hmem
  obtain ⟨-, hqualifier⟩ := ElementKind.level_target_of_anchor hspec
    (Option.isSome_of_eq_some hanchor)
  rw [htarget, resolveSite_eq_of_anchor hspec hqualifier hanchor (splitAtDot?_eq_none hdot) hparent,
    Option.bind_eq_some_iff] at he
  obtain ⟨owner, howner, hmember⟩ := he
  rw [hearlier.targetOf?_eq_some_iff hconforms (hroot.isTyped.2.walk hcontainer) hnamed hnames,
    hearlier.leadsTo_congr hfinal hconforms hnamed hnames] at howner
  refine ⟨owner, howner, ?_⟩
  obtain ⟨hentry, hentity⟩ := hfinal.mem_of_leadsTo hconforms hnamed hnames howner
  have hown := hroot.conforms _ (Element.mem_descendants_of_walk hwalk)
  rw [hown.target_of_member hspec (Or.inl (Option.isSome_of_eq_some hanchor))
    (by rw [hsites]; exact List.mem_append_right _ List.mem_cons_self)] at hmember
  exact container_of_resolveMember hindex hentry hentity hmember

/-- The object before a dot is linked to the entity in which the member is looked for. -/
theorem container_of_qualified (hroot : root.IsLowered) {packages : String → Prop}
    {trees : Element → Prop} (hindex : linker.index.OfTrees packages trees)
    {r : LinkedReference} (hr : r ∈ (linker.link l root).references)
    (hwalk : root.walk r.path = some element) {spec : ReferenceSpec} {feature : String}
    (hspec : element.kind.reference? r.site.property = some spec)
    (hqualifier : spec.qualifier = some feature) {head member : String}
    (htext : r.site.text = Name.nested head member) (hhead : '.' ∉ head.toList)
    {objects : Containment Element} (hobjects : root.containment? feature = some objects)
    {i : Nat} (hfirst : objects.elements.findIdx? (·.id == some head) = some i) :
    ∀ e, r.target = some e →
      ∃ owner, (linker.link l root).LeadsTo (ElementPath.root.child feature i) "entity" owner ∧
        e.container = some owner.globalId := by
  intro e he
  obtain ⟨before, after, sites, later, -, hsites, htarget⟩ :=
    exists_split_of_mem_link hroot hr hwalk
  obtain ⟨object, hobject, hplace, hderives⟩ :=
    exists_object_of_findIdx? hroot hspec hqualifier hobjects hfirst
  have hmem := Element.mem_descendants_of_walk hplace
  have hconforms := hroot.conforms _ hmem
  obtain ⟨named, hnamed, hnames⟩ := ElementKind.reference?_of_derivesMembers hderives
  have hfinal := knows_foldl_linkElement linker (linker.origin l) hroot (List.Subset.refl _) hmem
  have hmeans : linker.resolveQualified? (linker.origin l) root feature r.site.text r.site.target =
      some ((linker.objectEntity? (linker.origin l) object).bind fun entity =>
        linker.resolveMember entity member r.site.target) := by
    unfold resolveQualified?
    rw [htext, splitAtDot?_nested hhead]
    simp only [Option.bind_eq_bind, Option.bind_some, hobjects, hobject, Option.pure_def]
  rw [htarget, resolveSite_of_qualifier hspec hqualifier hmeans] at he
  obtain ⟨owner, howner, hmember⟩ := Option.bind_eq_some_iff.mp he
  unfold objectEntity? at howner
  rw [hconforms.referencesOf_entity hderives, Option.bind_eq_some_iff,
    ← hfinal.leadsTo_iff hconforms hnamed hnames] at howner
  refine ⟨owner, howner, ?_⟩
  obtain ⟨hentry, hentity⟩ := hfinal.mem_of_leadsTo hconforms hnamed hnames howner
  have hown := hroot.conforms _ (Element.mem_descendants_of_walk hwalk)
  rw [hown.target_of_member hspec (Or.inr (Option.isSome_of_eq_some hqualifier))
    (by rw [hsites]; exact List.mem_append_right _ List.mem_cons_self)] at hmember
  exact container_of_resolveMember hindex hentry hentity hmember

/-- The members that an element shows are the attributes of the entity that it is linked to. -/
theorem implicit_link (linker : Linker) (l : Location) (hroot : root.IsLowered)
    {packages : String → Prop} {trees : Element → Prop}
    (hindex : linker.index.OfTrees packages trees)
    (hwalk : root.walk path = some element) (hderives : element.kind.derivesMembers = true) :
    (∀ owner, (linker.link l root).LeadsTo path "entity" owner →
      (linker.link l root).implicit.filter (·.owner = path) =
        (linker.index.attributesOf owner.globalId).map fun member =>
          ⟨path, owner.globalId, member⟩) ∧
    ((∀ owner, ¬ (linker.link l root).LeadsTo path "entity" owner) →
      (linker.link l root).implicit.filter (·.owner = path) = []) := by
  have hmem := Element.mem_descendants_of_walk hwalk
  have hconforms := hroot.conforms _ hmem
  obtain ⟨named, hnamed, hnames⟩ := ElementKind.reference?_of_derivesMembers hderives
  obtain ⟨before, after, hsplit⟩ := List.append_of_mem hmem
  have hordered := Element.pairwise_descendants hroot.distinct
  rw [hsplit, List.pairwise_append, List.pairwise_cons] at hordered
  have hothers : (∀ d ∈ before, d.1 ≠ path) ∧ ∀ d ∈ after, d.1 ≠ path := by
    refine ⟨?_, ?_⟩ <;> rintro d hd rfl
    · exact hordered.2.2 d hd _ List.mem_cons_self List.prefix_rfl
    · exact hordered.2.1.1 d hd List.prefix_rfl
  have hfinal := knows_foldl_linkElement linker (linker.origin l) hroot (List.Subset.refl _) hmem
  -- only the element itself adds members at its path, and it does so when it is linked
  let earlier := linker.linkElement (linker.origin l) root
    (before.foldl (linker.linkElement (linker.origin l) root) {}) (path, element)
  have himplicit : (linker.link l root).implicit.filter (·.owner = path) =
      linker.implicitMembers earlier path element.kind := by
    unfold link
    rw [hsplit, List.foldl_append, List.foldl_cons, implicit_foldl_linkElement hothers.2,
      implicit_linkElement, List.filter_append, implicit_foldl_linkElement hothers.1,
      List.filter_eq_self.mpr fun m hm => decide_eq_true (owner_of_mem_implicitMembers hm)]
    rfl
  have hearlier : linker.Knows (linker.origin l) root path element earlier := by
    have hfold : earlier = (before ++ [(path, element)]).foldl
        (linker.linkElement (linker.origin l) root) {} := by
      rw [List.foldl_append]
      rfl
    rw [hfold]
    refine knows_foldl_linkElement linker _ hroot ?_
      (List.mem_append_right _ (List.mem_singleton_self _))
    rw [hsplit, List.append_cons before _ after]
    exact List.subset_append_left _ _
  have htarget : ∀ owner, earlier.targetOf? path "entity" = some owner ↔
      (linker.link l root).LeadsTo path "entity" owner := fun owner => by
    rw [hearlier.targetOf?_eq_some_iff hconforms (hroot.isTyped.2.walk hwalk) hnamed hnames,
      hearlier.leadsTo_congr hfinal hconforms hnamed hnames]
    rfl
  rw [himplicit]
  unfold implicitMembers
  rw [if_pos hderives]
  refine ⟨fun owner howner => ?_, fun hnone => ?_⟩
  · rw [(htarget owner).mpr howner]
    dsimp only
    rw [hindex.coherent.membersOf_eq, List.filter_filter]
    congr 1
    refine List.filter_congr fun e _ => ?_
    rw [Bool.decide_and]
    rfl
  · split
    · rename_i owner howner
      exact absurd ((htarget owner).mp howner) (hnone owner)
    · rfl

end Unit

/-- Links in which members belong to the entities that are linked. -/
structure MembersAgree (links : Links) (index : Index) (root : Element) : Prop where
  /-- An anchored reference without a dot means an element directly below the entity to which
  the anchor of the containing element is linked, and nothing if that is linked to none. -/
  anchored : ∀ r ∈ links.references, ∀ element, root.walk r.path = some element →
    ∀ spec anchor, element.kind.reference? r.site.property = some spec →
      spec.anchor = some anchor → '.' ∉ r.site.text.toList →
    ∃ parent, r.path.parent? = some parent ∧
      (∀ e, r.target = some e →
        ∃ owner, links.LeadsTo parent anchor owner ∧ e.container = some owner.globalId) ∧
      ((∀ owner, ¬ links.LeadsTo parent anchor owner) → r.target = none)
  /-- A reference `head.member`, of which the head is the identifier of an object, means an
  element directly below the entity to which the first such object is linked. -/
  qualified : ∀ r ∈ links.references, ∀ element, root.walk r.path = some element →
    ∀ spec feature, element.kind.reference? r.site.property = some spec →
      spec.qualifier = some feature →
    ∀ head member, r.site.text = head ++ "." ++ member → '.' ∉ head.toList →
    ∀ objects i, root.containment? feature = some objects →
      objects.elements.findIdx? (·.id == some head) = some i →
    ∀ e, r.target = some e → ∃ owner,
      links.LeadsTo (ElementPath.root.child feature i) "entity" owner ∧
        e.container = some owner.globalId
  /-- What an element shows are the attributes of the entity to which it is linked, in the order
  they are written, and nothing if it is linked to none. -/
  implicit : ∀ path element, root.walk path = some element → element.kind.derivesMembers = true →
    (∀ owner, links.LeadsTo path "entity" owner →
      links.implicit.filter (·.owner = path) = (index.attributesOf owner.globalId).map
        (fun member => ⟨path, owner.globalId, member⟩) ∧
      ∃ indices : List Nat, indices.Pairwise (· < ·) ∧
        (index.attributesOf owner.globalId).map (·.path) =
          indices.map (ElementPath.root.child "attributes")) ∧
    ((∀ owner, ¬ links.LeadsTo path "entity" owner) →
      links.implicit.filter (·.owner = path) = [])

/-- **Members belong to the entities that are linked.**  In an index of lowered trees, under
whatever packages, the links of every lowered tree agree on the entities whose members they
name and show. -/
theorem link_membersAgree {index : Index}
    (hindex : index.OfTrees (fun _ => True) fun _ => True) (packages : PackageGraph)
    (scope : DependencyScope) (l : Location) (hroot : root.IsLowered) :
    MembersAgree (link ⟨index, packages, scope⟩ l root) index root where
  anchored := by
    intro r hr element hwalk spec anchor hspec hanchor hdot
    obtain ⟨parent, hparent, hmember⟩ :=
      container_of_anchored hroot hindex hr hwalk hspec hanchor hdot
    refine ⟨parent, hparent, hmember, fun hnone => ?_⟩
    rw [Option.eq_none_iff_forall_ne_some]
    intro e he
    obtain ⟨owner, howner, -⟩ := hmember e he
    exact hnone owner howner
  qualified := by
    intro r hr element hwalk spec feature hspec hqualifier head member htext hhead objects i
      hobjects hfirst
    exact container_of_qualified hroot hindex hr hwalk hspec hqualifier htext hhead hobjects hfirst
  implicit := by
    intro path element hwalk hderives
    let linker : Linker := ⟨index, packages, scope⟩
    obtain ⟨hshown, hnone⟩ := linker.implicit_link l hroot hindex hwalk hderives
    refine ⟨fun owner howner => ⟨hshown owner howner, ?_⟩, hnone⟩
    have hmem := Element.mem_descendants_of_walk hwalk
    obtain ⟨named, hnamed, hnames⟩ := ElementKind.reference?_of_derivesMembers hderives
    have hfinal := linker.knows_foldl_linkElement (linker.origin l) hroot (List.Subset.refl _) hmem
    obtain ⟨hentry, -⟩ := hfinal.mem_of_leadsTo (hroot.conforms _ hmem) hnamed hnames howner
    exact hindex.exists_indices_attributesOf hentry

/-! A package with two entities of the same name, and a mapping in which what depends on another
property is written before it. -/

namespace Rearranged

open ChainOfPackages (treeOf entityOfB ofTrees_insertUnit)

/-- The mapping.  Its target is the entity that was indexed later, under another name. -/
def mapping : String :=
  "mapping:\n  id: M\n  target:\n    mappings:\n      - source: S.k\n        attribute: k\n" ++
    "    entity: Y1\n  sources:\n    - entity: Y\n      id: S\n"

/-- The index of the two entities and the mapping. -/
def units : Index :=
  (((Index.empty.insertUnit ⟨⟨"/b/x.cm"⟩, "b", treeOf entityOfB, "Y"⟩).2.insertUnit
    ⟨⟨"/b/y.cm"⟩, "b", treeOf entityOfB, "Y"⟩).2.insertUnit
      ⟨⟨"/b/m.cm"⟩, "b", treeOf mapping, "M"⟩).2

/-- The package. -/
def graph : PackageGraph :=
  PackageGraph.empty.insert (ThreePackages.packageOf "b" [])

theorem ofTrees_units : units.OfTrees (fun _ => True) fun _ => True := by
  rw [units]
  refine ofTrees_insertUnit ?_ ⟨"/b/m.cm"⟩ trivial (by decide +kernel)
  refine ofTrees_insertUnit ?_ ⟨"/b/y.cm"⟩ trivial (by decide +kernel)
  exact ofTrees_insertUnit .empty ⟨"/b/x.cm"⟩ trivial (by decide +kernel)

end Rearranged

open Rearranged in
theorem link_membersAgree_rearranged :
    ((link ⟨units, graph, .direct⟩ ⟨"/b/m.cm"⟩ (ChainOfPackages.treeOf mapping)).references.map
          (fun r => (r.site.text, r.target.map (·.globalId))) =
        [("Y1", some "b.Y1"), ("S.k", some "b.Y.k"), ("k", some "b.Y1.k"), ("Y", some "b.Y")] ∧
      (link ⟨units, graph, .direct⟩ ⟨"/b/m.cm"⟩ (ChainOfPackages.treeOf mapping)).implicit.map
          (fun m => (m.entity, m.member.globalId)) = [("b.Y1", "b.Y1.k"), ("b.Y", "b.Y.k")]) ∧
      MembersAgree (link ⟨units, graph, .direct⟩ ⟨"/b/m.cm"⟩ (ChainOfPackages.treeOf mapping)) units
        (ChainOfPackages.treeOf mapping) := by
  have hlowered : (ChainOfPackages.treeOf mapping).IsLowered :=
    Document.isLowered_root (ChainOfPackages.root_ofText (by decide +kernel))
  exact ⟨by decide +kernel, link_membersAgree ofTrees_units graph .direct ⟨"/b/m.cm"⟩ hlowered⟩

end Linker
end ModelWorkspace
