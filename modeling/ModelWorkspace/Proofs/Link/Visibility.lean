import ModelWorkspace.Link.Resolve
import ModelWorkspace.Proofs.Index.Insert
import ModelWorkspace.Proofs.Package.Declared

/-!
# Declared dependencies bound what links can mean

The visible part of an index are the entries of the package of a unit and of the
packages which that package sees.  Two facts are shown of every rule that resolves a
name: what it finds is visible, and it finds the same in two indexes whose visible parts
agree.  The linker as a whole inherits both.

The rules look names up in the whole index, by global identifier, by location and by
container.  None of these can lead out of the visible part: a global identifier shows
its package, the entries of one location have one package, and what lies below an
element lies in its unit.
-/

namespace ModelWorkspace

/-- Two folds whose steps agree where an invariant holds give the same result. -/
theorem foldl_eq_of_invariant {σ α : Type} {f g : σ → α → σ} {P : σ → Prop} {xs : List α}
    (hstep : ∀ s, P s → ∀ x ∈ xs, f s x = g s x ∧ P (f s x)) {start : σ} (hstart : P start) :
    xs.foldl f start = xs.foldl g start ∧ P (xs.foldl f start) := by
  induction xs generalizing start with
  | nil => exact ⟨rfl, hstart⟩
  | cons x rest ih =>
      obtain ⟨heq, hnext⟩ := hstep start hstart x List.mem_cons_self
      rw [List.foldl_cons, List.foldl_cons, ← heq]
      exact ih (fun s hs y hy => hstep s hs y (List.mem_cons_of_mem _ hy)) hnext

namespace Index

/-- The entries of some packages. -/
def visible (index : Index) (ids : List String) : List IndexEntry :=
  index.entries.filter fun e => e.package ∈ ids

variable {index : Index} {ids : List String} {e : IndexEntry}

theorem mem_visible_iff : e ∈ index.visible ids ↔ e ∈ index.entries ∧ e.package ∈ ids := by
  unfold visible
  rw [List.mem_filter, decide_eq_true_iff]

/-- An index whose entries are in packages, with a unit whose entries are visible. -/
structure Confined (index : Index) (ids : List String) (l : Location) : Prop where
  coherent : index.Coherent
  isPackageId : ∀ e ∈ index.entries, Name.IsPackageId e.package
  visible_of_location : ∀ e ∈ index.entries, e.location = l → e.package ∈ ids

namespace Confined

variable {l : Location}

/-- A qualified name of a visible package is one of a visible entry or of none. -/
theorem get?_globalId_eq_some_iff (h : index.Confined ids l) {id name : String} (hid : id ∈ ids)
    (hpackage : Name.IsPackageId id) :
    index.get? (Name.globalId id name) = some e ↔
      e ∈ index.visible ids ∧ e.globalId = Name.globalId id name := by
  rw [h.coherent.get?_eq_some_iff, mem_visible_iff]
  constructor
  · rintro ⟨he, hglobal⟩
    have hown := h.coherent.globalId_eq e he
    rw [hglobal] at hown
    have hsame := Name.package_eq_of_globalId_eq hpackage (h.isPackageId e he) hown
    exact ⟨⟨he, hsame ▸ hid⟩, hglobal⟩
  · rintro ⟨⟨he, -⟩, hglobal⟩
    exact ⟨he, hglobal⟩

theorem entriesIn_eq (h : index.Confined ids l) {other : Location}
    (hvisible : ∀ e ∈ index.entries, e.location = other → e.package ∈ ids) :
    index.entriesIn other = (index.visible ids).filter fun e => e.location = other := by
  rw [h.coherent.entriesIn_eq]
  unfold visible
  rw [List.filter_filter]
  refine List.filter_congr fun e he => ?_
  by_cases hl : e.location = other
  · simp [hl, hvisible e he hl]
  · simp [hl]

/-- The unit of a visible entry is visible as a whole. -/
theorem visible_of_mem (h : index.Confined ids l) {owner : IndexEntry}
    (howner : owner ∈ index.visible ids) :
    ∀ e ∈ index.entries, e.location = owner.location → e.package ∈ ids := by
  intro e he hl
  obtain ⟨hmem, hid⟩ := mem_visible_iff.mp howner
  rw [h.coherent.package_eq e he owner hmem hl]
  exact hid

theorem membersOf_eq (h : index.Confined ids l) {owner : IndexEntry}
    (howner : owner ∈ index.visible ids) :
    index.membersOf owner.globalId =
      (index.visible ids).filter fun e => e.container = some owner.globalId := by
  obtain ⟨hmem, -⟩ := mem_visible_iff.mp howner
  rw [h.coherent.membersOf_eq]
  unfold visible
  rw [List.filter_filter]
  refine List.filter_congr fun e he => ?_
  by_cases hcontainer : e.container = some owner.globalId
  · -- a member stands in the unit of what contains it
    obtain ⟨other, hother, hid, hl⟩ := h.coherent.container_mem e he _ hcontainer
    have hsame := h.coherent.entry_unique hother hmem hid
    have hpackage := h.visible_of_mem howner e he (by rw [← hl, hsame])
    simp [hcontainer, hpackage]
  · simp [hcontainer]

end Confined

/-- Two indexes that agree on what is visible from a unit. -/
structure SameView (i j : Index) (ids : List String) (l : Location) : Prop where
  left : i.Confined ids l
  right : j.Confined ids l
  visible_eq : i.visible ids = j.visible ids

namespace SameView

variable {i j : Index} {l : Location}

theorem get?_globalId_eq (h : SameView i j ids l) {id : String} (name : String) (hid : id ∈ ids)
    (hpackage : Name.IsPackageId id) :
    i.get? (Name.globalId id name) = j.get? (Name.globalId id name) := by
  apply Option.ext
  intro e
  rw [h.left.get?_globalId_eq_some_iff hid hpackage,
    h.right.get?_globalId_eq_some_iff hid hpackage, h.visible_eq]

theorem entriesIn_eq (h : SameView i j ids l) : i.entriesIn l = j.entriesIn l := by
  rw [h.left.entriesIn_eq h.left.visible_of_location,
    h.right.entriesIn_eq h.right.visible_of_location, h.visible_eq]

theorem entriesIn_owner_eq (h : SameView i j ids l) {owner : IndexEntry}
    (howner : owner ∈ i.visible ids) :
    i.entriesIn owner.location = j.entriesIn owner.location := by
  rw [h.left.entriesIn_eq (h.left.visible_of_mem howner),
    h.right.entriesIn_eq (h.right.visible_of_mem (h.visible_eq ▸ howner)), h.visible_eq]

theorem membersOf_eq (h : SameView i j ids l) {owner : IndexEntry}
    (howner : owner ∈ i.visible ids) :
    i.membersOf owner.globalId = j.membersOf owner.globalId := by
  rw [h.left.membersOf_eq howner, h.right.membersOf_eq (h.visible_eq ▸ howner), h.visible_eq]

end SameView
end Index

/-! ## One index: what is found is visible -/

namespace Linker

open Index

variable {linker : Linker} {origin : Origin} {package : Package}

/-- The entries that may be named in a package. -/
def visibleFrom (linker : Linker) (package : Package) : List IndexEntry :=
  linker.index.visible (linker.namespacesFrom package)

/-- References made in a unit of a package, in an index and a graph of packages. -/
structure Inside (linker : Linker) (origin : Origin) (package : Package) : Prop where
  confined : linker.index.Confined (linker.namespacesFrom package) origin.location
  package_eq : origin.package = some package
  namespaces : ∀ id ∈ linker.namespacesFrom package, Name.IsPackageId id

/-- An entry that is visible and of the expected kind. -/
def IsTarget (linker : Linker) (package : Package) (kind : ElementKind) (e : IndexEntry) :
    Prop :=
  e ∈ linker.visibleFrom package ∧ e.kind = kind

theorem isTarget_of_filter {found : Option IndexEntry} {kind : ElementKind} {e : IndexEntry}
    (hvisible : ∀ e, found = some e → e ∈ linker.visibleFrom package)
    (h : found.filter (·.kind == kind) = some e) : linker.IsTarget package kind e := by
  rw [Option.filter_eq_some_iff] at h
  exact ⟨hvisible e h.1, by simpa using h.2⟩

theorem mem_of_findLocal {l : Location} {name : String} {e : IndexEntry}
    (h : linker.index.findLocal l name = some e) : e ∈ linker.index.entriesIn l :=
  List.mem_of_find?_eq_some h

theorem Inside.isTarget_sameUnit? (h : linker.Inside origin package) {name : String}
    {kind : ElementKind} {e : IndexEntry} (he : linker.sameUnit? origin name kind = some e) :
    linker.IsTarget package kind e := by
  have hvisible : ∀ other e, linker.index.findLocal origin.location other = some e →
      e ∈ linker.visibleFrom package := by
    intro other e hfound
    have hmem := mem_of_findLocal hfound
    rw [h.confined.entriesIn_eq h.confined.visible_of_location] at hmem
    exact List.mem_of_mem_filter hmem
  unfold sameUnit? at he
  rw [Option.orElse_eq_or, Option.or_eq_some_iff] at he
  rcases he with he | ⟨-, he⟩
  · exact isTarget_of_filter (hvisible name) he
  · obtain ⟨root, -, hroot⟩ := Option.bind_eq_some_iff.mp he
    exact isTarget_of_filter (hvisible (Name.nested root name)) hroot

/-- The rules for a name in a unit that has a package, in order. -/
theorem Inside.resolveName_eq (h : linker.Inside origin package) (name : String)
    (kind : ElementKind) :
    linker.resolveName origin name kind =
      (linker.sameUnit? origin name kind).or
        (((linker.namespacesFrom package).findSome? fun id =>
            linker.inPackage? id name kind).or
          (linker.byGlobalId? (linker.namespacesFrom package) name kind)) := by
  unfold resolveName
  rw [h.package_eq]
  dsimp only
  rw [Option.orElse_eq_or, Option.orElse_eq_or]

theorem Inside.isTarget_resolveName (h : linker.Inside origin package) {name : String}
    {kind : ElementKind} {e : IndexEntry}
    (he : linker.resolveName origin name kind = some e) : linker.IsTarget package kind e := by
  rw [h.resolveName_eq, Option.or_eq_some_iff] at he
  rcases he with he | ⟨-, he⟩
  · exact h.isTarget_sameUnit? he
  · rw [Option.or_eq_some_iff] at he
    rcases he with he | ⟨-, he⟩
    · -- what is found in a namespace has its package, so it is visible
      obtain ⟨id, hid, hfound⟩ := List.exists_of_findSome?_eq_some he
      refine isTarget_of_filter (fun e hget => ?_) hfound
      exact ((h.confined.get?_globalId_eq_some_iff hid (h.namespaces id hid)).mp hget).1
    · -- a global identifier only counts if its package is seen
      unfold byGlobalId? at he
      rw [Option.filter_eq_some_iff, Bool.and_eq_true, beq_iff_eq, List.contains_iff_mem] at he
      obtain ⟨hget, hkind, hid⟩ := he
      have hmem := (h.confined.coherent.get?_eq_some_iff.mp hget).1
      exact ⟨mem_visible_iff.mpr ⟨hmem, hid⟩, hkind⟩

theorem Inside.isTarget_resolveMember (h : linker.Inside origin package) {entity : IndexEntry}
    (hentity : entity ∈ linker.visibleFrom package) {name : String} {kind : ElementKind}
    {e : IndexEntry} (he : linker.resolveMember entity name kind = some e) :
    linker.IsTarget package kind e := by
  refine isTarget_of_filter (fun e hfound => ?_) he
  have hmem := mem_of_findLocal hfound
  rw [h.confined.entriesIn_eq (h.confined.visible_of_mem hentity)] at hmem
  exact List.mem_of_mem_filter hmem

theorem Inside.visible_objectEntity? (h : linker.Inside origin package) {object : Element}
    {e : IndexEntry} (he : linker.objectEntity? origin object = some e) :
    e ∈ linker.visibleFrom package := by
  obtain ⟨site, -, hsite⟩ := Option.bind_eq_some_iff.mp he
  exact (h.isTarget_resolveName hsite).1

theorem Inside.isTarget_resolveQualified? (h : linker.Inside origin package) {root : Element}
    {feature text : String} {kind : ElementKind} {e : IndexEntry}
    (he : linker.resolveQualified? origin root feature text kind = some (some e)) :
    linker.IsTarget package kind e := by
  unfold resolveQualified? at he
  simp only [Option.bind_eq_bind, Option.pure_def, Option.bind_eq_some_iff,
    Option.some.injEq] at he
  obtain ⟨⟨head, member⟩, -, objects, -, object, -, entity, hentity, hmember⟩ := he
  exact h.isTarget_resolveMember (h.visible_objectEntity? hentity) hmember

/-! ## The rules for a reference -/

section Rules

variable {root : Element} {links : Links} {path parent : ElementPath} {kind : ElementKind}
  {site : ReferenceSite} {spec : ReferenceSpec}

/-- What the object before the dot leads to counts first. -/
theorem resolveSite_of_qualifier {feature : String} {found : Option IndexEntry}
    (hspec : kind.reference? site.property = some spec) (hqualifier : spec.qualifier = some feature)
    (hfound : linker.resolveQualified? origin root feature site.text site.target = some found) :
    linker.resolveSite origin root links path kind site = found := by
  unfold resolveSite
  dsimp only
  rw [hspec, Option.bind_some, hqualifier, Option.bind_some, hfound]

/-- A name without a dot that stands at an anchor is that of a member. -/
theorem resolveSite_eq_of_anchor {anchor : String}
    (hspec : kind.reference? site.property = some spec) (hqualifier : spec.qualifier = none)
    (hanchor : spec.anchor = some anchor) (hdot : splitAtDot? site.text = none)
    (hparent : path.parent? = some parent) :
    linker.resolveSite origin root links path kind site =
      (links.targetOf? parent anchor).bind fun entity =>
        linker.resolveMember entity site.text site.target := by
  unfold resolveSite
  dsimp only
  rw [hspec, Option.bind_some, Option.bind_some, hqualifier, hanchor, hdot, hparent]
  rfl

/-- Without an anchor, what no object leads to is read as a name. -/
theorem resolveSite_of_anchor_eq_none
    (hanchor : (kind.reference? site.property).bind (·.anchor) = none) :
    linker.resolveSite origin root links path kind site =
      (((kind.reference? site.property).bind (·.qualifier)).bind fun feature =>
        linker.resolveQualified? origin root feature site.text site.target).getD
        (linker.resolveName origin site.text site.target) := by
  unfold resolveSite
  dsimp only
  rw [hanchor]
  split
  · rename_i found hfound
    rw [hfound]
    rfl
  · rename_i hnone
    rw [hnone]
    rfl

/-- What a reference without an anchor means. -/
theorem resolveSite_eq (hspec : kind.reference? site.property = some spec)
    (hanchor : spec.anchor = none) :
    linker.resolveSite origin root links path kind site =
      (spec.qualifier.bind fun feature =>
        linker.resolveQualified? origin root feature site.text site.target).getD
        (linker.resolveName origin site.text site.target) := by
  rw [resolveSite_of_anchor_eq_none (by rw [hspec, Option.bind_some, hanchor]), hspec,
    Option.bind_some]

/-- A reference without anchor and qualifier is read as a name. -/
theorem resolveSite_eq_resolveName
    (hanchor : (kind.reference? site.property).bind (·.anchor) = none)
    (hqualifier : (kind.reference? site.property).bind (·.qualifier) = none)
    (path : ElementPath) :
    linker.resolveSite origin root links path kind site =
      linker.resolveName origin site.text site.target := by
  rw [resolveSite_of_anchor_eq_none hanchor, hqualifier]
  rfl

/-- Without an anchor nothing that was linked before matters. -/
theorem resolveSite_congr_links (hspec : kind.reference? site.property = some spec)
    (hanchor : spec.anchor = none) (links others : Links) :
    linker.resolveSite origin root links path kind site =
      linker.resolveSite origin root others path kind site := by
  rw [resolveSite_eq hspec hanchor, resolveSite_eq hspec hanchor]

end Rules

/-! ## The targets of links -/

/-- The targets of links are visible and of the kinds that are expected, and so are the
members that elements show. -/
structure Bounded (linker : Linker) (package : Package) (links : Links) : Prop where
  references : ∀ r ∈ links.references, ∀ e, r.target = some e →
    linker.IsTarget package r.site.target e
  implicit : ∀ m ∈ links.implicit, m.member ∈ linker.visibleFrom package

theorem bounded_empty : linker.Bounded package {} where
  references := fun _ hr => absurd hr List.not_mem_nil
  implicit := fun _ hm => absurd hm List.not_mem_nil

variable {links : Links}

theorem Bounded.visible_targetOf? (h : linker.Bounded package links) {path : ElementPath}
    {property : String} {e : IndexEntry} (he : links.targetOf? path property = some e) :
    e ∈ linker.visibleFrom package := by
  obtain ⟨r, hr, htarget⟩ := Option.bind_eq_some_iff.mp he
  have hmem := List.mem_of_find?_eq_some hr
  exact (h.references r (List.mem_reverse.mp hmem) e htarget).1

theorem Inside.isTarget_resolveSite (h : linker.Inside origin package)
    (hlinks : linker.Bounded package links) {root : Element} {path : ElementPath}
    {kind : ElementKind} {site : ReferenceSite} {e : IndexEntry}
    (he : linker.resolveSite origin root links path kind site = some e) :
    linker.IsTarget package site.target e := by
  unfold resolveSite at he
  dsimp only at he
  split at he
  · rename_i found hqualified
    obtain ⟨feature, -, hfound⟩ := Option.bind_eq_some_iff.mp hqualified
    rw [he] at hfound
    exact h.isTarget_resolveQualified? hfound
  · split at he
    · obtain ⟨entity, hentity, hmember⟩ := Option.bind_eq_some_iff.mp he
      obtain ⟨parent, -, htarget⟩ := Option.bind_eq_some_iff.mp hentity
      exact h.isTarget_resolveMember (hlinks.visible_targetOf? htarget) hmember
    · exact h.isTarget_resolveName he

theorem Inside.bounded_linkSite (h : linker.Inside origin package)
    (hlinks : linker.Bounded package links) (root : Element) (path : ElementPath)
    (kind : ElementKind) (site : ReferenceSite) :
    linker.Bounded package (linker.linkSite origin root path kind links site) where
  references := by
    intro r hr e he
    rcases List.mem_append.mp hr with hr | hr
    · exact hlinks.references r hr e he
    · rw [List.mem_singleton] at hr
      subst hr
      exact h.isTarget_resolveSite hlinks he
  implicit := hlinks.implicit

theorem Inside.visible_implicitMembers (h : linker.Inside origin package)
    (hlinks : linker.Bounded package links) {path : ElementPath} {kind : ElementKind}
    {m : ImplicitMember} (hm : m ∈ linker.implicitMembers links path kind) :
    m.member ∈ linker.visibleFrom package := by
  unfold implicitMembers at hm
  split at hm
  · split at hm
    · rename_i entity hentity
      obtain ⟨member, hmember, rfl⟩ := List.mem_map.mp hm
      have hmem := List.mem_of_mem_filter hmember
      rw [h.confined.membersOf_eq (hlinks.visible_targetOf? hentity)] at hmem
      exact List.mem_of_mem_filter hmem
    · exact absurd hm List.not_mem_nil
  · exact absurd hm List.not_mem_nil

end Linker
end ModelWorkspace
