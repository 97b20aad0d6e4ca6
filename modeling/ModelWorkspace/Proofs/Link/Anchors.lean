import ModelWorkspace.Proofs.Link.Labels

/-!
# What stands at an anchor

An anchored reference names a member of the entity which the containing element refers to.
When it is linked, what is written before it has been linked, so the links know this entity
(`targetOf?_eq`): an element makes its references before anything nested in it is looked at,
and of the references of one property only the first one has the index `0`.

So the labels of candidates always mean these candidates there (`resolveSite_anchored`).
-/

namespace ModelWorkspace

/-! ## Containers of elements -/

namespace Element

theorem walk_append (e : Element) (path rest : ElementPath) :
    e.walk (path ++ rest) = (e.walk path).bind (·.walk rest) := by
  induction path generalizing e with
  | nil => rfl
  | cons step path ih =>
      rw [List.cons_append, walk, walk]
      cases e.containment? step.feature with
      | none => rfl
      | some c =>
          dsimp only
          cases c.elements[step.index]? with
          | none => rfl
          | some child => exact ih child

theorem exists_child_of_walk_singleton {e child : Element} {step : PathStep}
    (h : e.walk [step] = some child) : ∃ c ∈ e.children, child ∈ c.elements := by
  rw [walk] at h
  split at h
  · cases h
  · rename_i c hc
    split at h
    · cases h
    · rename_i found hfound
      rw [walk] at h
      cases h
      exact ⟨c, List.mem_of_find?_eq_some hc, List.mem_of_getElem? hfound⟩

/-- Every element but the root is directly nested in the one that its path leads to without
its last step. -/
theorem exists_container_of_walk {root e : Element} {path parent : ElementPath}
    (hwalk : root.walk path = some e) (hparent : path.parent? = some parent) :
    ∃ container, root.walk parent = some container ∧
      ∃ c ∈ container.children, e ∈ c.elements := by
  unfold ElementPath.parent? at hparent
  split at hparent
  · cases hparent
  · rename_i hne
    cases hparent
    rw [← List.dropLast_append_getLast hne, walk_append] at hwalk
    obtain ⟨container, hcontainer, hlast⟩ := Option.bind_eq_some_iff.mp hwalk
    exact ⟨container, hcontainer, exists_child_of_walk_singleton hlast⟩

/-- What is nested in a typed element is typed. -/
theorem IsTyped.walk {root e : Element} (h : root.IsTyped) {path : ElementPath}
    (hwalk : root.walk path = some e) : e.IsTyped := by
  induction path generalizing root with
  | nil =>
      cases hwalk
      exact h
  | cons step rest ih =>
      rw [← List.singleton_append, walk_append] at hwalk
      obtain ⟨child, hchild, hrest⟩ := Option.bind_eq_some_iff.mp hwalk
      obtain ⟨c, hc, hmem⟩ := exists_child_of_walk_singleton hchild
      obtain ⟨-, -, hnested⟩ := h
      exact ih (hnested c hc child hmem) hrest

/-- Of the references of a property the first one is that with the index `0`. -/
theorem IsTyped.index_eq_zero_iff {e : Element} (h : e.IsTyped) {property : String}
    {first : ReferenceSite} (hfirst : (e.referencesOf property).head? = some first)
    {site : ReferenceSite} (hsite : site ∈ e.referencesOf property) :
    site.index = 0 ↔ site = first := by
  obtain ⟨hnumbered, -, -⟩ := h
  have hindex : ∀ {i : Nat} {site : ReferenceSite},
      (e.referencesOf property)[i]? = some site → site.index = i := by
    intro i site hget
    have hmapped := congrArg (·[i]?) (hnumbered property)
    simp only [List.getElem?_map, hget, Option.map_some] at hmapped
    obtain ⟨hlt, hi⟩ := List.getElem?_eq_some_iff.mp hmapped.symm
    rw [← hi, List.getElem_range]
  rw [List.head?_eq_getElem?] at hfirst
  constructor
  · intro hzero
    obtain ⟨i, hget⟩ := List.mem_iff_getElem?.mp hsite
    rw [← hindex hget, hzero, hfirst] at hget
    exact (Option.some.inj hget).symm
  · rintro rfl
    exact hindex hfirst

end Element

/-- A property that names one entity, and is read as a name. -/
def ReferenceSpec.NamesEntity (spec : ReferenceSpec) : Prop :=
  spec.target = .entity ∧ spec.many = false ∧ spec.anchor = none ∧ spec.qualifier = none

instance (spec : ReferenceSpec) : Decidable spec.NamesEntity :=
  inferInstanceAs (Decidable (spec.target = .entity ∧ spec.many = false ∧ spec.anchor = none ∧
    spec.qualifier = none))

/-- Anchors lead to properties that name one entity. -/
theorem ElementKind.namesEntity_of_anchor {container kind : ElementKind}
    {feature property anchor : String} {nested : ContainmentSpec} {spec : ReferenceSpec}
    (hnested : container.containment? feature = some nested) (hkind : kind = nested.kind)
    (hspec : kind.reference? property = some spec) (hanchor : spec.anchor = some anchor) :
    ∃ named, container.reference? anchor = some named ∧ named.NamesEntity := by
  have hall : ∀ nested ∈ container.containments, ∀ spec ∈ nested.kind.references,
      ∀ anchor ∈ spec.anchor, ∃ named ∈ container.references,
        container.reference? anchor = some named ∧ named.NamesEntity := by
    cases container <;> decide
  subst hkind
  obtain ⟨named, -, hnamed⟩ := hall nested (List.mem_of_find?_eq_some hnested) spec
    (List.mem_of_find?_eq_some hspec) anchor hanchor
  exact ⟨named, hnamed⟩

/-- The element around one with an anchored reference names an entity at the anchor. -/
theorem Element.IsTyped.exists_anchor {root element : Element} (htyped : root.IsTyped)
    {path parent : ElementPath} (hwalk : root.walk path = some element)
    (hparent : path.parent? = some parent) {property anchor : String} {spec : ReferenceSpec}
    (hspec : element.kind.reference? property = some spec) (hanchor : spec.anchor = some anchor) :
    ∃ container named, root.walk parent = some container ∧
      container.kind.reference? anchor = some named ∧ named.NamesEntity := by
  obtain ⟨container, hcontainer, block, hblock, hchild⟩ :=
    Element.exists_container_of_walk hwalk hparent
  obtain ⟨-, hkinds, -⟩ := htyped.walk hcontainer
  obtain ⟨nested, hnested, hkind⟩ := hkinds block hblock element hchild
  obtain ⟨named, hnamed, hnames⟩ :=
    ElementKind.namesEntity_of_anchor hnested hkind hspec hanchor
  exact ⟨container, named, hcontainer, hnamed, hnames⟩

theorem ReferenceSpec.NamesEntity.plain {kind : ElementKind} {property : String}
    {named : ReferenceSpec} (h : named.NamesEntity) (hnamed : kind.reference? property = some named) :
    (kind.reference? property).bind (·.anchor) = none ∧
      (kind.reference? property).bind (·.qualifier) = none := by
  obtain ⟨-, -, hanchor, hqualifier⟩ := h
  rw [hnamed]
  exact ⟨hanchor, hqualifier⟩

namespace Linker

variable {linker : Linker} {origin : Origin} {root : Element} {links : Links}

/-! ## What has been linked -/

/-- The links of what is written in a unit before the element at a path. -/
def linksBefore (linker : Linker) (l : Location) (root : Element) (path : ElementPath) : Links :=
  (root.descendants.takeWhile (·.1 ≠ path)).foldl
    (linker.linkElement (linker.origin l) root) {}

/-- A linked reference is one of an element, and means what is found for it. -/
def IsLinked (linker : Linker) (origin : Origin) (root : Element)
    (described : ElementPath × Element) (r : LinkedReference) : Prop :=
  r.path = described.1 ∧ r.site ∈ described.2.references ∧
    ∃ earlier, r.target =
      linker.resolveSite origin root earlier described.1 described.2.kind r.site

/-- A reference that has been linked means what is found for it when those before it have been
linked. -/
theorem exists_split_of_mem_foldl_linkSite {path : ElementPath} {kind : ElementKind}
    {sites : List ReferenceSite} {r : LinkedReference}
    (hr : r ∈ (sites.foldl (linker.linkSite origin root path kind) links).references) :
    r ∈ links.references ∨ r.path = path ∧ ∃ before after, sites = before ++ r.site :: after ∧
      r.target = linker.resolveSite origin root
        (before.foldl (linker.linkSite origin root path kind) links) path kind r.site := by
  induction sites generalizing links with
  | nil => exact Or.inl hr
  | cons site rest ih =>
      rcases ih hr with hold | ⟨hpath, before, after, hsites, htarget⟩
      · rcases List.mem_append.mp hold with hold | hnew
        · exact Or.inl hold
        · rw [List.mem_singleton] at hnew
          subst hnew
          exact Or.inr ⟨rfl, [], rest, rfl, rfl⟩
      · exact Or.inr ⟨hpath, site :: before, after, by rw [hsites]; rfl, htarget⟩

theorem mem_references_foldl_linkSite {path : ElementPath} {kind : ElementKind}
    {sites : List ReferenceSite} {r : LinkedReference}
    (hr : r ∈ (sites.foldl (linker.linkSite origin root path kind) links).references) :
    r ∈ links.references ∨ r.path = path ∧ r.site ∈ sites ∧
      ∃ earlier, r.target = linker.resolveSite origin root earlier path kind r.site := by
  refine (exists_split_of_mem_foldl_linkSite hr).imp id ?_
  rintro ⟨hpath, before, after, rfl, htarget⟩
  exact ⟨hpath, List.mem_append_right _ List.mem_cons_self, _, htarget⟩

theorem references_subset_foldl_linkSite (path : ElementPath) (kind : ElementKind)
    (sites : List ReferenceSite) (links : Links) :
    links.references ⊆
      (sites.foldl (linker.linkSite origin root path kind) links).references := by
  induction sites generalizing links with
  | nil => exact fun _ hr => hr
  | cons site rest ih => exact fun r hr => ih _ (List.mem_append_left _ hr)

theorem exists_mem_references_foldl_linkSite {path : ElementPath} {kind : ElementKind}
    {sites : List ReferenceSite} {site : ReferenceSite} (hsite : site ∈ sites) :
    ∃ r ∈ (sites.foldl (linker.linkSite origin root path kind) links).references,
      r.path = path ∧ r.site = site := by
  induction sites generalizing links with
  | nil => exact absurd hsite List.not_mem_nil
  | cons first rest ih =>
      rcases List.mem_cons.mp hsite with rfl | hsite
      · exact ⟨_, references_subset_foldl_linkSite path kind rest _
          (List.mem_append_right _ (List.mem_singleton_self _)), rfl, rfl⟩
      · exact ih hsite

/-- The references of some elements that have been linked. -/
structure LinkedOf (linker : Linker) (origin : Origin) (root : Element)
    (described : List (ElementPath × Element)) (links : Links) : Prop where
  sound : ∀ r ∈ links.references, ∃ d ∈ described, linker.IsLinked origin root d r
  complete : ∀ d ∈ described, ∀ site ∈ d.2.references,
    ∃ r ∈ links.references, r.path = d.1 ∧ r.site = site

theorem LinkedOf.linkElement {described : List (ElementPath × Element)}
    (h : linker.LinkedOf origin root described links) (d : ElementPath × Element) :
    linker.LinkedOf origin root (described ++ [d]) (linker.linkElement origin root links d) where
  sound := by
    intro r hr
    change r ∈ (d.2.references.foldl (linker.linkSite origin root d.1 d.2.kind)
      links).references at hr
    rcases mem_references_foldl_linkSite hr with hold | hnew
    · obtain ⟨other, hother, hlinked⟩ := h.sound r hold
      exact ⟨other, List.mem_append_left _ hother, hlinked⟩
    · exact ⟨d, List.mem_append_right _ (List.mem_singleton_self d), hnew⟩
  complete := by
    intro other hother site hsite
    rcases List.mem_append.mp hother with hold | hnew
    · obtain ⟨r, hr, hplace⟩ := h.complete other hold site hsite
      exact ⟨r, references_subset_foldl_linkSite d.1 d.2.kind d.2.references links hr, hplace⟩
    · rw [List.mem_singleton] at hnew
      subst hnew
      exact exists_mem_references_foldl_linkSite hsite

theorem linkedOf_foldl (described : List (ElementPath × Element)) :
    linker.LinkedOf origin root described
      (described.foldl (linker.linkElement origin root) {}) := by
  have hfold : ∀ {before links}, linker.LinkedOf origin root before links →
      linker.LinkedOf origin root (before ++ described)
        (described.foldl (linker.linkElement origin root) links) := by
    induction described with
    | nil =>
        intro before links h
        rw [List.append_nil]
        exact h
    | cons d rest ih =>
        intro before links h
        rw [List.append_cons]
        exact ih (h.linkElement d)
  have hnone : linker.LinkedOf origin root [] {} :=
    ⟨fun _ hr => absurd hr List.not_mem_nil, fun _ hd => absurd hd List.not_mem_nil⟩
  exact hfold hnone

theorem targetOf?_eq_of_forall {path : ElementPath} {property : String}
    {target : Option IndexEntry}
    (hsome : ∃ r ∈ links.references, r.path = path ∧ r.site.property = property ∧
      r.site.index = 0)
    (hall : ∀ r ∈ links.references, r.path = path → r.site.property = property →
      r.site.index = 0 → r.target = target) : links.targetOf? path property = target := by
  have hread : ∀ {r : LinkedReference}, (r.path == path && r.site.property == property &&
      r.site.index == 0) = true ↔
        r.path = path ∧ r.site.property = property ∧ r.site.index = 0 := by
    intro r
    rw [Bool.and_eq_true, Bool.and_eq_true, beq_iff_eq, beq_iff_eq, beq_iff_eq, and_assoc]
  obtain ⟨r, hr, hplace⟩ := hsome
  unfold Links.targetOf?
  cases hfound : links.references.reverse.find? fun r =>
      r.path == path && r.site.property == property && r.site.index == 0 with
  | none =>
      exact absurd (hread.mpr hplace)
        (List.find?_eq_none.mp hfound r (List.mem_reverse.mpr hr))
  | some other =>
      have hmem := List.mem_reverse.mp (List.mem_of_find?_eq_some hfound)
      have hother := List.find?_some hfound
      obtain ⟨hpath, hproperty, hindex⟩ := hread.mp hother
      exact hall other hmem hpath hproperty hindex

/-- Links in which the element at a path is linked with all that is written in it. -/
structure Knows (linker : Linker) (origin : Origin) (root : Element) (path : ElementPath)
    (element : Element) (links : Links) : Prop where
  sound : ∀ r ∈ links.references, r.path = path → linker.IsLinked origin root (path, element) r
  complete : ∀ site ∈ element.references, ∃ r ∈ links.references, r.path = path ∧ r.site = site

section Knows

variable {element : Element} {path : ElementPath}

theorem LinkedOf.knows {described : List (ElementPath × Element)}
    (h : linker.LinkedOf origin root described links) (hmem : (path, element) ∈ described)
    (hunique : ∀ d ∈ described, d.1 = path → d.2 = element) :
    linker.Knows origin root path element links where
  sound := by
    intro r hr hpath
    obtain ⟨d, hd, hlinked⟩ := h.sound r hr
    have hplace : d.1 = path := hlinked.1.symm.trans hpath
    have hd' : d = (path, element) := Prod.ext hplace (hunique d hd hplace)
    rw [hd'] at hlinked
    exact hlinked
  complete := h.complete (path, element) hmem

/-- What is linked at another path does not matter. -/
theorem Knows.foldl_linkSite (h : linker.Knows origin root path element links)
    {other : ElementPath} (hne : other ≠ path) (kind : ElementKind) (sites : List ReferenceSite) :
    linker.Knows origin root path element
      (sites.foldl (linker.linkSite origin root other kind) links) where
  sound := by
    intro r hr hpath
    rcases mem_references_foldl_linkSite hr with hold | ⟨hplace, -⟩
    · exact h.sound r hold hpath
    · exact absurd (hplace.symm.trans hpath) hne
  complete := by
    intro site hsite
    obtain ⟨r, hr, hplace⟩ := h.complete site hsite
    exact ⟨r, references_subset_foldl_linkSite other kind sites links hr, hplace⟩

/-- References that are read as names mean the same whatever has been linked before. -/
theorem Knows.target_eq (h : linker.Knows origin root path element links) {property : String}
    (hplain : (element.kind.reference? property).bind (·.anchor) = none ∧
      (element.kind.reference? property).bind (·.qualifier) = none)
    {r : LinkedReference} (hr : r ∈ links.references) (hpath : r.path = path)
    (hproperty : r.site.property = property) :
    r.site ∈ element.referencesOf property ∧
      r.target = linker.resolveName origin r.site.text r.site.target := by
  obtain ⟨-, hsite, earlier, htarget⟩ := h.sound r hr hpath
  refine ⟨List.mem_filter.mpr ⟨hsite, beq_iff_eq.mpr hproperty⟩, ?_⟩
  rw [htarget]
  exact resolveSite_eq_resolveName (hproperty ▸ hplain.1) (hproperty ▸ hplain.2) _

/-- Such links tell what the element refers to under a property that is read as a name. -/
theorem Knows.targetOf?_eq (h : linker.Knows origin root path element links)
    (htyped : element.IsTyped) {property : String}
    (hplain : (element.kind.reference? property).bind (·.anchor) = none ∧
      (element.kind.reference? property).bind (·.qualifier) = none) :
    links.targetOf? path property = (element.referencesOf property).head?.bind fun site =>
      linker.resolveName origin site.text site.target := by
  cases hfirst : (element.referencesOf property).head? with
  | none =>
      rw [List.head?_eq_none_iff] at hfirst
      unfold Links.targetOf?
      rw [Option.bind_none, Option.bind_eq_none_iff]
      intro r hfound
      have hread := List.find?_some hfound
      rw [Bool.and_eq_true, Bool.and_eq_true, beq_iff_eq, beq_iff_eq] at hread
      have hr := List.mem_reverse.mp (List.mem_of_find?_eq_some hfound)
      have hsite := (h.target_eq hplain hr hread.1.1 hread.1.2).1
      rw [hfirst] at hsite
      exact absurd hsite List.not_mem_nil
  | some site =>
      have hmem := List.mem_of_head? hfirst
      obtain ⟨hsite, hproperty⟩ := List.mem_filter.mp hmem
      refine targetOf?_eq_of_forall ?_ fun r hr hpath hsame hindex => ?_
      · obtain ⟨r, hr, hplace, heq⟩ := h.complete site hsite
        refine ⟨r, hr, hplace, ?_, ?_⟩
        · rw [heq, beq_iff_eq.mp hproperty]
        · rw [heq]
          exact (htyped.index_eq_zero_iff hfirst hmem).mpr rfl
      · obtain ⟨hin, htarget⟩ := h.target_eq hplain hr hpath hsame
        rw [htarget, (htyped.index_eq_zero_iff hfirst hin).mp hindex]
        rfl

end Knows

/-! ## Anchored references -/

section Anchored

variable {l : Location} {element container : Element} {path parent : ElementPath}

/-- A container is listed before what is nested in it. -/
theorem mem_before_of_parent? (hfeatures : root.HasDistinctFeatures)
    {before after : List (ElementPath × Element)}
    (hsplit : root.descendants = before ++ (path, element) :: after)
    (hparent : path.parent? = some parent) (hcontainer : root.walk parent = some container) :
    (parent, container) ∈ before := by
  -- nothing is listed before what it is nested in, and the container lies on the way
  have hordered := Element.pairwise_descendants hfeatures
  have hlisted := Element.mem_descendants_of_walk hcontainer
  rw [hsplit] at hordered hlisted
  obtain ⟨-, hrest, -⟩ := List.pairwise_append.mp hordered
  obtain ⟨hbegins, hne⟩ := ElementPath.prefix_of_parent? hparent
  rcases List.mem_append.mp hlisted with hbefore | hmem
  · exact hbefore
  · rcases List.mem_cons.mp hmem with heq | hafter
    · exact absurd (Prod.mk.inj heq).1 hne
    · exact absurd hbegins ((List.pairwise_cons.mp hrest).1 _ hafter)

/-- Before an element is linked, its container has been. -/
theorem mem_takeWhile_descendants (hfeatures : root.HasDistinctFeatures)
    (hwalk : root.walk path = some element) (hparent : path.parent? = some parent)
    (hcontainer : root.walk parent = some container) :
    (parent, container) ∈ root.descendants.takeWhile (·.1 ≠ path) := by
  obtain ⟨before, after, hsplit⟩ := List.append_of_mem (Element.mem_descendants_of_walk hwalk)
  have hordered := Element.pairwise_descendants hfeatures
  rw [hsplit] at hordered
  have hpaths : ∀ d ∈ before, decide (d.1 ≠ path) = true := by
    intro d hd
    refine decide_eq_true ?_
    rintro rfl
    exact (List.pairwise_append.mp hordered).2.2 d hd _ List.mem_cons_self List.prefix_rfl
  rw [hsplit, List.takeWhile_append_of_pos hpaths]
  exact List.mem_append_left _ (mem_before_of_parent? hfeatures hsplit hparent hcontainer)

/-- When an element is linked, the links know what its container refers to under a property
that is read as a name. -/
theorem targetOf?_linksBefore (hfeatures : root.HasDistinctFeatures) (htyped : root.IsTyped)
    (hwalk : root.walk path = some element) (hparent : path.parent? = some parent)
    (hcontainer : root.walk parent = some container) {anchor : String}
    (hplain : (container.kind.reference? anchor).bind (·.anchor) = none ∧
      (container.kind.reference? anchor).bind (·.qualifier) = none)
    {site : ReferenceSite} (hsite : (container.referencesOf anchor).head? = some site)
    (kind : ElementKind) (earlier : List ReferenceSite) :
    (earlier.foldl (linker.linkSite (linker.origin l) root path kind)
        (linker.linksBefore l root path)).targetOf? parent anchor =
      linker.resolveName (linker.origin l) site.text site.target := by
  have hlinked : linker.LinkedOf (linker.origin l) root
      (root.descendants.takeWhile (·.1 ≠ path)) (linker.linksBefore l root path) :=
    linkedOf_foldl _
  -- the container has been linked before, and the element itself stands at another path
  have hknows := hlinked.knows (mem_takeWhile_descendants hfeatures hwalk hparent hcontainer)
    fun d hd hplace => by
      have hwalkd := Element.walk_of_mem_descendants hfeatures
        ((List.takeWhile_sublist _).subset hd)
      rw [hplace, hcontainer] at hwalkd
      exact (Option.some.inj hwalkd).symm
  have hne := (ElementPath.prefix_of_parent? hparent).2
  rw [(hknows.foldl_linkSite (Ne.symm hne) kind earlier).targetOf?_eq (htyped.walk hcontainer)
    hplain, hsite]
  rfl

theorem mem_candidates_of_anchor {property anchor : String} {spec : ReferenceSpec}
    {c : Candidate} (hwalk : root.walk path = some element)
    (hspec : element.kind.reference? property = some spec) (hanchor : spec.anchor = some anchor)
    (hc : c ∈ linker.candidates l root path property) :
    ∃ parent container site entity, path.parent? = some parent ∧
      root.walk parent = some container ∧ (container.referencesOf anchor).head? = some site ∧
      linker.resolveName (linker.origin l) site.text site.target = some entity ∧
      c ∈ linker.memberCandidates spec.target id entity := by
  unfold candidates at hc
  rw [hwalk, Option.bind_some, hspec] at hc
  dsimp only at hc
  rw [hanchor] at hc
  dsimp only at hc
  split at hc
  · rename_i parent hparent
    have hmem := (Candidate.mem_of_mem_distinct hc).1
    unfold anchoredCandidates at hmem
    simp only [Option.bind_eq_bind] at hmem
    generalize hentity? : ((root.walk parent).bind fun container =>
      (container.referencesOf anchor).head?.bind fun site =>
        linker.resolveName (linker.origin l) site.text site.target) = entity? at hmem
    cases entity? with
    | none => exact absurd hmem List.not_mem_nil
    | some entity =>
        simp only [Option.bind_eq_some_iff] at hentity?
        obtain ⟨container, hcontainer, site, hsite, hentity⟩ := hentity?
        exact ⟨parent, container, site, entity, hparent, hcontainer, hsite, hentity, hmem⟩
  · exact absurd hc List.not_mem_nil

/-- **What labels mean at an anchor.**  The label of a candidate for an anchored property
always means the candidate. -/
theorem Reading.resolveSite_anchored {package : Package} {property anchor : String}
    {spec : ReferenceSpec} {c : Candidate}
    (h : linker.Reading (linker.origin l) package) (hfeatures : root.HasDistinctFeatures)
    (htyped : root.IsTyped) (hwalk : root.walk path = some element)
    (hspec : element.kind.reference? property = some spec) (hanchor : spec.anchor = some anchor)
    (hc : c ∈ linker.candidates l root path property) (earlier : List ReferenceSite)
    (index : Nat) (range : TextRange) :
    linker.resolveSite (linker.origin l) root
        (earlier.foldl (linker.linkSite (linker.origin l) root path element.kind)
          (linker.linksBefore l root path))
        path element.kind ⟨property, index, c.label, range, spec.target⟩ = some c.entry := by
  obtain ⟨hlevel, hqualifier⟩ :=
    ElementKind.level_target_of_anchor hspec (Option.isSome_of_eq_some hanchor)
  obtain ⟨parent, container, site, entity, hparent, hcontainer, hsite, hentity, hmem⟩ :=
    mem_candidates_of_anchor hwalk hspec hanchor hc
  obtain ⟨found, named, hfound, hnamed, hnames⟩ := htyped.exists_anchor hwalk hparent hspec hanchor
  obtain rfl := Option.some.inj (hcontainer.symm.trans hfound)
  have hplain := hnames.plain hnamed
  obtain ⟨member, hmember, rfl⟩ := List.mem_map.mp hmem
  obtain ⟨hmember, hsame⟩ := List.mem_filter.mp hmember
  have hsame : member.kind = spec.target := beq_iff_eq.mp hsame
  obtain ⟨hentry, hin⟩ := h.coherent.mem_membersOf h.layered
    (isTarget_iff.mp (h.isTarget_resolveName hentity)).1 hmember
    (ElementKind.level_ne_zero hlevel hsame)
  rw [resolveSite_eq_of_anchor hspec hqualifier hanchor (splitAtDot?_eq_none hin.dot_notMem)
      hparent,
    targetOf?_linksBefore hfeatures htyped hwalk hparent hcontainer hplain hsite, hentity,
    Option.bind_some]
  dsimp only
  rw [← hsame]
  exact h.resolveMember_localId hentry hin

/-- At an anchor nothing leads astray and nothing is hidden. -/
theorem Reading.not_leadsAstray_of_anchor {package : Package} {property anchor : String}
    {spec : ReferenceSpec} {c : Candidate} (h : linker.Reading (linker.origin l) package)
    (hwalk : root.walk path = some element)
    (hspec : element.kind.reference? property = some spec) (hanchor : spec.anchor = some anchor)
    (hc : c ∈ linker.candidates l root path property) :
    ¬ (linker.LeadsAstray (linker.origin l) root spec c ∨ linker.IsHidden package c.entry) := by
  obtain ⟨hlevel, hqualifier⟩ :=
    ElementKind.level_target_of_anchor hspec (Option.isSome_of_eq_some hanchor)
  obtain ⟨-, -, site, entity, -, -, -, hentity, hmem⟩ :=
    mem_candidates_of_anchor hwalk hspec hanchor hc
  rintro (⟨feature, -, -, -, -, hsome, -⟩ | hhidden)
  · rw [hqualifier] at hsome
    cases hsome
  · obtain ⟨hentry, -, hkind⟩ := isTarget_iff.mp
      (h.isTarget_of_mem_memberCandidates (h.isTarget_resolveName hentity).1 hmem)
    exact h.not_isHidden_of_level hentry (ElementKind.level_ne_zero hlevel hkind) hhidden

end Anchored
end Linker
end ModelWorkspace
