import ModelWorkspace.Proofs.Element.Spacing
import ModelWorkspace.Proofs.Index.Members
import ModelWorkspace.Proofs.Text.Lines
import ModelWorkspace.Proofs.Workspace.Isolation

/-!
# From a reference to what it means, and back

A place in a file belongs to one reference at most, since references do not even touch, so asking
there for the definition follows this reference.  The place at which the definition starts belongs
to the element that is defined: an element that starts at the same place or touches it is one of
those around it, and all of these are less deep (`Workspace.elementAtOffset_place`).  So the path
leads from the reference to the element and comes back with the same element (`run_navigation`).
-/

namespace ModelWorkspace

/-- The only member of a list that has a property is the first one that has it. -/
theorem find?_eq_some_of_pairwise {α : Type*} {p : α → Bool} {l : List α} {x : α} (hx : x ∈ l)
    (hp : p x = true) (h : l.Pairwise fun a b => ¬(p a = true ∧ p b = true)) :
    l.find? p = some x := by
  obtain ⟨before, after, rfl⟩ := List.append_of_mem hx
  have hbefore := (List.pairwise_append.mp h).2.2
  refine List.find?_eq_some_iff_append.mpr ⟨hp, before, after, rfl, fun y hy => ?_⟩
  have hnot : ¬p y = true := fun hother => hbefore y hy x List.mem_cons_self ⟨hother, hp⟩
  simpa using hnot

/-! ## How deep targets of references lie -/

namespace ElementKind

/-- How many levels of elements can be nested in an element of a kind. -/
def height : ElementKind → Nat
  | mapping => 2
  | entity | relationship | systemDiagram | targetObject => 1
  | _ => 0

theorem height_of_containment? {kind : ElementKind} {feature : String} {spec : ContainmentSpec}
    (h : kind.containment? feature = some spec) : spec.kind.height < kind.height := by
  have hall : ∀ spec ∈ kind.containments, spec.kind.height < kind.height := by
    cases kind <;> decide
  exact hall spec (List.mem_of_find?_eq_some h)

/-- What can be referred to is a root, or nested in a root that has one level only. -/
theorem level_of_target {kind target : ElementKind} {property : String} {spec : ReferenceSpec}
    (h : kind.reference? property = some spec) (htarget : target = spec.target) :
    target.level = 0 ∨ target.level = 1 ∧ ∀ {container : ElementKind} {feature nested},
      container.containment? feature = some nested → nested.kind = target →
        container.height = 1 := by
  have hall : ∀ spec ∈ kind.references, spec.target.level = 0 ∨ spec.target.level = 1 ∧
      ∀ container ∈ ElementKind.all, ∀ nested ∈ container.containments,
        nested.kind = spec.target → container.height = 1 := by
    cases kind <;> decide
  subst htarget
  refine (hall spec (List.mem_of_find?_eq_some h)).imp_right fun ⟨hlevel, hroot⟩ => ⟨hlevel, ?_⟩
  intro container feature nested hnested
  have hlisted : container ∈ ElementKind.all := by
    cases container <;> decide
  exact hroot container hlisted nested (List.mem_of_find?_eq_some hnested)

end ElementKind

namespace Element

variable {root e : Element} {path : ElementPath}

/-- Nested elements have fewer levels left below them the longer their paths are. -/
theorem IsTyped.height_of_mem_descendantsFrom {described : ElementPath × Element} (h : e.IsTyped)
    (hmem : described ∈ descendantsFrom path e) :
    described.1.length + described.2.kind.height ≤ path.length + e.kind.height := by
  induction h generalizing path with
  | @intro e hnumbered hkinds hnested ih =>
      rcases mem_descendantsFrom_iff.mp hmem with rfl | ⟨c, hc, index, child, hget, hbelow⟩
      · exact Nat.le_refl _
      · have hchild := List.mem_of_getElem? hget
        obtain ⟨spec, hspec, hkind⟩ := hkinds c hc child hchild
        have hheight := ih c hc child hchild hbelow
        have hless := ElementKind.height_of_containment? hspec
        rw [hkind, ElementPath.child, List.length_append, List.length_singleton] at hheight
        omega

/-- No element of a unit lies deeper than an element that can be referred to, unless this is the
root. -/
theorem IsLowered.deepest_of_target (h : root.IsLowered) (hmem : (path, e) ∈ root.descendants)
    {kind : ElementKind} {property : String} {spec : ReferenceSpec}
    (hspec : kind.reference? property = some spec) (htarget : e.kind = spec.target) :
    path = ElementPath.root ∨ ∀ d ∈ root.descendants, d.1.length ≤ path.length := by
  have hlength : path.length = e.kind.level := h.length_path hmem
  rcases ElementKind.level_of_target hspec htarget with hlevel | ⟨hlevel, hcontainer⟩
  · rw [hlevel, List.length_eq_zero_iff] at hlength
    exact Or.inl hlength
  · obtain ⟨feature, index, nested, -, hnested, hkind⟩ := h.exists_feature hmem hlevel
    have hheight : root.kind.height = 1 := hcontainer hnested hkind.symm
    refine Or.inr fun d hd => ?_
    have hd := h.isTyped.2.height_of_mem_descendantsFrom hd
    rw [hheight, ElementPath.root, List.length_nil] at hd
    omega

end Element

/-! ## The deepest element at a place -/

namespace Workspace

open Element

variable {root e : Element} {path : ElementPath}

theorem foldl_deeperElement {best : ElementPath × Element} {before : List (ElementPath × Element)}
    (h : ∀ d ∈ before, d.1.length ≤ best.1.length) :
    (before ++ [best]).foldl deeperElement none = some best := by
  have hkept : ∀ found : Option (ElementPath × Element),
      (∀ d ∈ found, d.1.length ≤ best.1.length) →
        ∀ d ∈ before.foldl deeperElement found, d.1.length ≤ best.1.length := by
    induction before with
    | nil => exact fun _ hfound => hfound
    | cons next rest ih =>
        obtain ⟨hnext, hrest⟩ := List.forall_mem_cons.mp h
        intro found hfound
        refine ih hrest _ fun d hd => ?_
        unfold deeperElement at hd
        split at hd
        · cases hd
          exact hnext
        · split at hd
          · cases hd
            exact hnext
          · exact hfound d hd
  have hfound := hkept none nofun
  rw [List.foldl_append]
  generalize before.foldl deeperElement none = found at hfound
  cases found with
  | none => rfl
  | some d => exact if_pos (hfound d rfl)

/-- What lies below an element stands within something that is nested in the element. -/
theorem exists_childRange_of_prefix (hdistinct : root.HasDistinctFeatures)
    (hnested : root.All IsNested) (hmem : (path, e) ∈ root.descendants)
    {d : ElementPath × Element} (hd : d ∈ root.descendants) (hbelow : path <+: d.1)
    (hother : ¬d.1 <+: path) :
    ∃ range ∈ e.childRanges, range.start ≤ d.2.range.start ∧ d.2.range.stop ≤ range.stop := by
  obtain ⟨place, inner⟩ := d
  obtain ⟨rest, rfl⟩ := hbelow
  have hwalk := walk_of_mem_descendants hdistinct hd
  rw [walk_append, walk_of_mem_descendants hdistinct hmem, Option.bind_some] at hwalk
  have hlisted : (path ++ rest, inner) ∈ descendantsFrom path e := mem_descendantsFrom_of_walk hwalk
  rcases mem_descendantsFrom_iff.mp hlisted with hsame | ⟨c, hc, index, child, hget, hin⟩
  · have hpath : path ++ rest = path := (Prod.mk.inj hsame).1
    exact absurd (hpath.symm ▸ List.prefix_rfl : path ++ rest <+: path) hother
  · have hchild := List.mem_of_getElem? hget
    obtain ⟨-, hall⟩ : e.All IsNested :=
      of_mem_descendants (fun _ ⟨_, nested⟩ => nested) hnested hmem
    exact ⟨_, mem_childRanges hc hchild, within_of_mem_descendantsFrom (hall c hc child hchild) hin⟩

/-- The deepest element at a place is the one that reaches over it while nothing in it touches it,
if the element starts before the place or no other element lies deeper. -/
theorem elementAtOffset_eq (hdistinct : root.HasDistinctFeatures) (hnested : root.All IsNested)
    (hmem : (path, e) ∈ root.descendants) {offset : Nat} (hstart : e.range.start ≤ offset)
    (hstop : offset < e.range.stop)
    (hclear : ∀ range ∈ e.childRanges, offset < range.start ∨ range.stop < offset)
    (hdeep : e.range.start < offset ∨ path = ElementPath.root ∨
      ∀ d ∈ root.descendants, d.1.length ≤ path.length) :
    elementAtOffset root offset = some (path, e) := by
  have htouches : ∀ d : ElementPath × Element, d.2.range.touches offset = true →
      d.2.range.start ≤ offset ∧ offset ≤ d.2.range.stop := fun d h => by
    simpa [TextRange.touches] using h
  obtain ⟨before, after, hsplit⟩ := List.append_of_mem hmem
  have hordered := pairwise_descendants hdistinct
  have hplaced : root.descendants.Pairwise _ := pairwise_places hnested ElementPath.root
  rw [hsplit, List.pairwise_append, List.pairwise_cons] at hordered hplaced
  obtain ⟨-, ⟨hlater, -⟩, hearlier⟩ := hordered
  obtain ⟨-, ⟨hplacedLater, -⟩, hplacedEarlier⟩ := hplaced
  -- what is listed behind the element lies in something that it contains, or behind its end
  have hafter : after.filter (fun d => d.2.range.touches offset) = [] := by
    refine List.filter_eq_nil_iff.mpr fun d hd htouched => ?_
    have htouched := htouches d htouched
    have hlisted : d ∈ root.descendants :=
      hsplit ▸ List.mem_append_right _ (List.mem_cons_of_mem _ hd)
    rcases hplacedLater d hd with hbelow | hbehind
    · obtain ⟨range, hrange, hwithin⟩ :=
        exists_childRange_of_prefix hdistinct hnested hmem hlisted hbelow (hlater d hd)
      have hapart := hclear range hrange
      omega
    · dsimp only at hbehind
      omega
  -- and what is listed before it is around it, or ends where it starts
  have hbefore : ∀ d ∈ before.filter (fun d => d.2.range.touches offset),
      d.1.length ≤ path.length := by
    intro d hd
    obtain ⟨hd, htouched⟩ := List.mem_filter.mp hd
    have htouched := htouches d htouched
    rcases hplacedEarlier d hd _ List.mem_cons_self with haround | hends
    · exact haround.length_le
    · rcases hdeep with hbehind | rfl | hdeepest
      · dsimp only at hends
        omega
      · exact absurd List.nil_prefix (hearlier d hd _ List.mem_cons_self)
      · exact hdeepest d (hsplit ▸ List.mem_append_left _ hd)
  have hhere : e.range.touches offset = true := by
    simp [TextRange.touches, hstart, Nat.le_of_lt hstop]
  show (root.descendants.filter fun d => d.2.range.touches offset).foldl deeperElement none = _
  rw [hsplit, List.filter_append, List.filter_cons, if_pos hhere, hafter]
  exact foldl_deeperElement hbefore

/-- The element at the place where an element is defined is this element. -/
theorem elementAtOffset_place (hdistinct : root.HasDistinctFeatures) (hnested : root.All IsNested)
    (hspaced : root.All IsSpaced) (hmem : (path, e) ∈ root.descendants)
    (hdeep : path = ElementPath.root ∨ ∀ d ∈ root.descendants, d.1.length ≤ path.length) :
    elementAtOffset root (e.idRange.getD e.range).start = some (path, e) := by
  have hhere : e.IsSpaced := hspaced.of_mem_descendants hmem
  have hinside : e.IsNested := hnested.of_mem_descendants hmem
  cases hid : e.idRange with
  | none =>
      rw [Option.getD_none]
      exact elementAtOffset_eq hdistinct hnested hmem (Nat.le_refl _) hhere.filled
        (fun range hrange => .inl (hhere.behind range hrange)) (.inr hdeep)
  | some id =>
      rw [Option.getD_some]
      obtain ⟨hstart, hfilled⟩ := hhere.declared id hid
      have hstop := (hinside.declared id hid).stop
      refine elementAtOffset_eq hdistinct hnested hmem (Nat.le_of_lt hstart) (by omega)
        (fun range hrange => ?_) (.inl hstart)
      rcases hhere.clear id hid range hrange with hbefore | hbehind
      · exact .inr hbefore
      · exact .inl (by omega)

end Workspace

/-! ## The reference at a place -/

namespace Linker

variable {linker : Linker} {origin : Origin} {root : Element}

theorem places_foldl_linkSite (path : ElementPath) (kind : ElementKind)
    (sites : List ReferenceSite) (links : Links) :
    (sites.foldl (linker.linkSite origin root path kind) links).references.map
        (fun r => (r.path, r.site)) =
      links.references.map (fun r => (r.path, r.site)) ++ sites.map fun site => (path, site) := by
  induction sites generalizing links with
  | nil => exact (List.append_nil _).symm
  | cons site rest ih =>
      rw [List.foldl_cons, ih]
      show (links.references ++ [(_ : LinkedReference)]).map _ ++ rest.map _ = _
      rw [List.map_append, List.append_assoc]
      rfl

/-- Every reference of a unit is linked once, in the order in which they are listed. -/
theorem places_link (linker : Linker) (l : Location) (root : Element) :
    (linker.link l root).references.map (fun r => (r.path, r.site)) =
      root.descendants.flatMap fun d => d.2.references.map fun site => (d.1, site) := by
  have hfold : ∀ (described : List (ElementPath × Element)) (links : Links),
      (described.foldl (linker.linkElement (linker.origin l) root) links).references.map
          (fun r => (r.path, r.site)) =
        links.references.map (fun r => (r.path, r.site)) ++
          described.flatMap fun d => d.2.references.map fun site => (d.1, site) := by
    intro described
    induction described with
    | nil => exact fun links => (List.append_nil _).symm
    | cons d rest ih =>
        intro links
        rw [List.foldl_cons, ih]
        show (d.2.references.foldl _ links).references.map _ ++ _ = _
        rw [places_foldl_linkSite, List.append_assoc]
        rfl
  exact hfold root.descendants {}

theorem sites_link (linker : Linker) (l : Location) (root : Element) :
    (linker.link l root).references.map (·.site) = root.sites.map (·.2) := by
  have hplaces := congrArg (List.map Prod.snd) (places_link linker l root)
  rw [List.map_map, List.map_flatMap] at hplaces
  refine hplaces.trans ?_
  rw [Element.sites, List.map_flatMap]
  refine List.flatMap_congr fun d _ => ?_
  rw [List.map_map, List.map_map]
  rfl

end Linker

namespace Workspace

variable {ws : Workspace} {l : Location} {u : SourceUnit}

/-- Every reference of a unit is one of a model file with a root. -/
theorem Settled.exists_root_of_reference (h : ws.Settled) (hu : ws.unit? l = some u)
    {r : LinkedReference} (hr : r ∈ u.links.references) :
    u.isModel = true ∧ ∃ root, (Document.ofText u.text).root = some root ∧
      u.links = ws.linker.link l root := by
  have hmodel : u.isModel = true := by
    cases hkind : u.isModel with
    | true => rfl
    | false =>
        have hmanifest : u.isManifest = true := by
          rw [SourceUnit.isManifest_eq_not_isModel, hkind]
          rfl
        rw [(h.wellFormed l u hu).unlinked hmanifest] at hr
        exact absurd hr List.not_mem_nil
  have hlinks := h.links_eq hu hmodel
  rw [hlinks, (h.wellFormed l u hu).document_eq hmodel] at hr
  rw [(h.wellFormed l u hu).document_eq hmodel] at hlinks
  cases hroot : (Document.ofText u.text).root with
  | none =>
      rw [hroot] at hr
      exact absurd hr List.not_mem_nil
  | some root =>
      rw [hroot] at hlinks
      exact ⟨hmodel, root, rfl, hlinks⟩

/-- A place belongs to one reference at most, and lies in the text. -/
theorem Settled.find?_touches (h : ws.Settled) (hu : ws.unit? l = some u)
    {r : LinkedReference} (hr : r ∈ u.links.references) {offset : Nat}
    (hstart : r.site.range.start ≤ offset) (hstop : offset ≤ r.site.range.stop) :
    u.lines.offset? (u.lines.position offset) = some offset ∧
      u.links.references.find? (·.site.range.touches offset) = some r := by
  obtain ⟨-, root, hroot, hlinks⟩ := h.exists_root_of_reference hu hr
  constructor
  · rw [hlinks] at hr
    obtain ⟨d, hd, -, hsite, -⟩ := (Linker.linkedOf_foldl root.descendants).sound r hr
    obtain ⟨-, hwithin, -⟩ := Document.within_ofText u.text
    have hd := Element.of_mem_descendants (fun _ ⟨_, _, _, nested⟩ => nested) (hwithin root hroot) hd
    cases hd with
    | intro _ _ referred _ =>
        exact LineIndex.offset?_position u.text (Nat.le_trans hstop (referred _ hsite).1.bounded)
  · obtain ⟨-, hapart⟩ := @Outline.apart_sites false _ _ hroot
    have hpairwise : (u.links.references.map (·.site)).Pairwise fun a b =>
        a.range.Apart b.range := by
      rw [hlinks, Linker.sites_link]
      exact List.pairwise_map.mpr hapart
    refine find?_eq_some_of_pairwise hr ?_ ((List.pairwise_map.mp hpairwise).imp ?_)
    · simp [TextRange.touches, hstart, hstop]
    · intro a b hab htouches
      simp only [TextRange.touches, Bool.and_eq_true, decide_eq_true_eq] at htouches
      rcases hab with hab | hab <;> omega

/-- What a reference means has a definition, and the element there is what it means. -/
theorem Settled.exists_definition (h : ws.Settled) (hu : ws.unit? l = some u)
    {r : LinkedReference} (hr : r ∈ u.links.references) {e : IndexEntry}
    (he : r.target = some e) :
    ∃ d, ws.definition? e = some d ∧ d.location = e.location ∧ d.globalId = e.globalId ∧
      ∃ element, ws.resolveElement e = some element ∧
        ws.elementAt d.location d.span.first = some (e.path, element) := by
  obtain ⟨hmodel, root, hroot, hlinks⟩ := h.exists_root_of_reference hu hr
  obtain ⟨p, hp, -⟩ := h.inside hu hmodel
  obtain ⟨hvisible, hexpected⟩ := (h.bounded hu hmodel hp).references r hr e he
  obtain ⟨v, hv, hvModel, ⟨element, helement, hkind⟩, -⟩ :=
    h.entry (Index.mem_visible_iff.mp hvisible).1
  -- the schema says of what kind the element is
  rw [hlinks] at hr
  obtain ⟨d, hd, -, hsite, -⟩ := (Linker.linkedOf_foldl root.descendants).sound r hr
  obtain ⟨spec, hspec, htarget⟩ :=
    ((Document.isLowered_root hroot).conforms d hd).targeted r.site hsite
  -- and it is found in the file in which it stands now
  obtain ⟨target, hfound, hwalk⟩ := Option.bind_eq_some_iff.mp helement
  have hdocument : v.document.root = some target := by
    unfold root? at hfound
    rwa [hv] at hfound
  have hparsed : (Document.ofText v.text).root = some target := by
    rw [← (h.wellFormed _ v hv).document_eq hvModel]
    exact hdocument
  have hlowered := Document.isLowered_root hparsed
  have hmem := Element.mem_descendants_of_walk hwalk
  obtain ⟨hnested, hspaced⟩ := Element.spaced_ofText hparsed
  have hdeep := hlowered.deepest_of_target hmem hspec
    (hkind.trans (hexpected.trans htarget))
  have hplace := elementAtOffset_place hlowered.distinct hnested hspaced hmem hdeep
  have hinText : (element.idRange.getD element.range).Within (byteWidth v.text.toList) := by
    obtain ⟨-, hwithin, -⟩ := Document.within_ofText v.text
    have hhere := Element.of_mem_descendants (fun _ ⟨_, _, _, nested⟩ => nested)
      (hwithin target hparsed) hmem
    cases hhere with
    | intro whole declared _ _ =>
        cases hid : element.idRange with
        | none => exact whole
        | some id => exact declared id hid
  refine ⟨⟨e.location, element.idRange.getD element.range,
    v.lines.span (element.idRange.getD element.range), e.kind, e.globalId⟩, ?_, rfl, rfl, element,
    helement, ?_⟩
  · unfold definition?
    rw [hv, helement]
    rfl
  · have hback := LineIndex.offset?_position v.text
      (Nat.le_trans hinText.ordered hinText.bounded)
    unfold elementAt
    dsimp only
    rw [hv]
    show (v.lines.offset? (v.lines.position _)).bind (fun offset =>
      v.document.root.bind (elementAtOffset · offset)) = _
    rw [hdocument, SourceUnit.lines, hback]
    exact hplace

/-- **Navigation leads to what a reference means and comes back with it.**  After every run, at
every place of a reference that means an element, its ends included, the definition that is found
is the one of this element; and at the position where the definition starts, the element that is
found is the one that the reference means, under the path of its entry. -/
theorem run_navigation (config : WorkspaceConfig) (operations : List Operation) :
    ((Workspace.ofConfig config).run operations).GivesUnless (SplitBy operations) fun ws =>
      ∀ l u, ws.unit? l = some u → ∀ r ∈ u.links.references, ∀ e, r.target = some e →
        ∀ offset, r.site.range.start ≤ offset → offset ≤ r.site.range.stop →
          ∃ d, ws.gotoDefinition l (u.lines.position offset) = some d ∧
            d.location = e.location ∧ d.globalId = e.globalId ∧
            ∃ element, ws.resolveElement e = some element ∧
              ws.elementAt d.location d.span.first = some (e.path, element) := by
  refine ((Settled.ofConfig config).run operations).mono ?_
  intro ws hsettled l u hu r hr e he offset hstart hstop
  obtain ⟨hoffset, hfound⟩ := hsettled.find?_touches hu hr hstart hstop
  obtain ⟨d, hd, hplace⟩ := hsettled.exists_definition hu hr he
  refine ⟨d, ?_, hplace⟩
  unfold gotoDefinition
  rw [hu]
  show (u.lines.offset? (u.lines.position offset)).bind (fun offset =>
    (u.links.references.find? (·.site.range.touches offset)).bind fun reference =>
      reference.target.bind ws.definition?) = _
  rw [hoffset, Option.bind_some, hfound, Option.bind_some, he]
  exact hd

end Workspace

namespace Histories

open Change Workspace

/-- At the end of a name in one package, the definition is found in the other one. -/
theorem run_navigation_dependent :
    ∃ ws u r e d element, updates {} dependent = .ok ws ∧ ws.unit? ⟨"/p/s.cm"⟩ = some u ∧
      r ∈ u.links.references ∧ r.target = some e ∧
      ws.gotoDefinition ⟨"/p/s.cm"⟩ (u.lines.position r.site.range.stop) = some d ∧
      d.location = ⟨"/q/t.cm"⟩ ∧ ws.resolveElement e = some element ∧
      ws.elementAt d.location d.span.first = some (ElementPath.root, element) := by
  obtain ⟨ws, hrun, hall⟩ := (run_navigation {} (dependent.map Change.operation)).exists_ok
    (not_splitBy (by decide +kernel))
  have hread : updates {} dependent = .ok ws := hrun
  have hfound : (firstTarget dependent ⟨"/p/s.cm"⟩).map (fun (_, e, _) =>
      (e.location, e.path)) = some (⟨"/q/t.cm"⟩, ElementPath.root) := by
    decide +kernel
  obtain ⟨⟨model, target, p, q⟩, hfirst, heq⟩ := Option.map_eq_some_iff.mp hfound
  obtain ⟨hlocation, hpath⟩ := Prod.mk.inj heq
  unfold firstTarget at hfirst
  rw [hread] at hfirst
  simp only [Except.toOption, Option.bind_eq_bind, Option.bind_some, Option.pure_def,
    Option.bind_eq_some_iff, Option.some.injEq, Prod.mk.injEq] at hfirst
  obtain ⟨u, hu, r, hr, e, he, -, -, -, -, -, rfl, -⟩ := hfirst
  have hordered : r.site.range.start ≤ r.site.range.stop := by
    have hranges : (updates {} dependent).toOption.map (fun ws => decide
        (∀ r ∈ ws.references ⟨"/p/s.cm"⟩, r.site.range.start ≤ r.site.range.stop)) = some true := by
      decide +kernel
    refine of_decide_eq_true (eq_of_updates hread hranges) r ?_
    rw [references, hu]
    exact List.mem_of_mem_head? hr
  obtain ⟨d, hd, hplace, -, element, helement, hback⟩ :=
    hall _ u hu r (List.mem_of_mem_head? hr) e he r.site.range.stop hordered (Nat.le_refl _)
  rw [hlocation] at hplace
  rw [hpath] at hback
  exact ⟨ws, u, r, e, d, element, hread, hu, List.mem_of_mem_head? hr, he, hd, hplace, helement,
    hback⟩

end Histories
end ModelWorkspace
