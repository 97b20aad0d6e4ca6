import ModelWorkspace.Proofs.Link.Visibility

/-!
# Links depend on what is visible only

Two indexes that agree on the entries which a unit may name give the unit the same
links, whatever else they hold (`link_eq_of_sameView`).  This is what lets an update
leave the links of a unit alone when no visible unit has changed, and it is what makes
declared dependencies a boundary: elements of other packages are never found, and they
never decide what is found.
-/

namespace ModelWorkspace
namespace Linker

open Index

/-- Two indexes that agree on what may be named in a unit of a package. -/
structure Alike (i j : Index) (g : PackageGraph) (scope : DependencyScope) (origin : Origin)
    (package : Package) : Prop where
  view : SameView i j (Linker.namespacesFrom ⟨i, g, scope⟩ package) origin.location
  package_eq : origin.package = some package
  namespaces : ∀ id ∈ Linker.namespacesFrom ⟨i, g, scope⟩ package, Name.IsPackageId id

variable {i j : Index} {g : PackageGraph} {scope : DependencyScope} {origin : Origin}
  {package : Package} {links : Links}

namespace Alike

theorem inside (h : Alike i j g scope origin package) :
    Inside ⟨i, g, scope⟩ origin package :=
  ⟨h.view.left, h.package_eq, h.namespaces⟩

theorem inside_right (h : Alike i j g scope origin package) :
    Inside ⟨j, g, scope⟩ origin package :=
  ⟨h.view.right, h.package_eq, h.namespaces⟩

theorem sameUnit?_eq (h : Alike i j g scope origin package) (name : String)
    (kind : ElementKind) :
    sameUnit? ⟨i, g, scope⟩ origin name kind = sameUnit? ⟨j, g, scope⟩ origin name kind := by
  unfold sameUnit? findLocal
  rw [h.view.entriesIn_eq]

theorem byGlobalId?_eq (h : Alike i j g scope origin package) (name : String)
    (kind : ElementKind) :
    byGlobalId? ⟨i, g, scope⟩ (namespacesFrom ⟨i, g, scope⟩ package) name kind =
      byGlobalId? ⟨j, g, scope⟩ (namespacesFrom ⟨j, g, scope⟩ package) name kind := by
  have hfound : ∀ {k : Index} {e : IndexEntry},
      k.Confined (namespacesFrom ⟨i, g, scope⟩ package) origin.location →
      (byGlobalId? ⟨k, g, scope⟩ (namespacesFrom ⟨i, g, scope⟩ package) name kind = some e ↔
        (e ∈ k.visible (namespacesFrom ⟨i, g, scope⟩ package) ∧ e.globalId = name) ∧
          e.kind = kind) := by
    intro k e hk
    unfold byGlobalId?
    rw [Option.filter_eq_some_iff, hk.coherent.get?_eq_some_iff, mem_visible_iff,
      Bool.and_eq_true, beq_iff_eq, List.contains_iff_mem]
    tauto
  apply Option.ext
  intro e
  rw [hfound h.view.left, h.view.visible_eq]
  exact (hfound h.view.right).symm

theorem resolveName_eq (h : Alike i j g scope origin package) (name : String)
    (kind : ElementKind) :
    resolveName ⟨i, g, scope⟩ origin name kind =
      resolveName ⟨j, g, scope⟩ origin name kind := by
  have hinPackage : ∀ id ∈ namespacesFrom ⟨i, g, scope⟩ package,
      inPackage? ⟨i, g, scope⟩ id name kind = inPackage? ⟨j, g, scope⟩ id name kind := by
    intro id hid
    unfold inPackage?
    rw [h.view.get?_globalId_eq name hid (h.namespaces id hid)]
  have hfindSome : ∀ ids : List String, (∀ id ∈ ids, id ∈ namespacesFrom ⟨i, g, scope⟩ package) →
      (ids.findSome? fun id => inPackage? ⟨i, g, scope⟩ id name kind) =
        ids.findSome? fun id => inPackage? ⟨j, g, scope⟩ id name kind := by
    intro ids hids
    induction ids with
    | nil => rfl
    | cons id rest ih =>
        rw [List.findSome?_cons, List.findSome?_cons, hinPackage id (hids id List.mem_cons_self),
          ih fun other hother => hids other (List.mem_cons_of_mem _ hother)]
  rw [h.inside.resolveName_eq, h.inside_right.resolveName_eq, h.sameUnit?_eq,
    h.byGlobalId?_eq, hfindSome _ fun _ hid => hid]
  rfl

theorem resolveMember_eq (h : Alike i j g scope origin package) {entity : IndexEntry}
    (hentity : entity ∈ visibleFrom ⟨i, g, scope⟩ package) (name : String)
    (kind : ElementKind) :
    resolveMember ⟨i, g, scope⟩ entity name kind =
      resolveMember ⟨j, g, scope⟩ entity name kind := by
  unfold resolveMember findLocal
  rw [h.view.entriesIn_owner_eq hentity]

theorem objectEntity?_eq (h : Alike i j g scope origin package) (object : Element) :
    objectEntity? ⟨i, g, scope⟩ origin object = objectEntity? ⟨j, g, scope⟩ origin object := by
  unfold objectEntity?
  congr 1
  funext site
  exact h.resolveName_eq site.text site.target

theorem resolveQualified?_eq (h : Alike i j g scope origin package) (root : Element)
    (feature text : String) (kind : ElementKind) :
    resolveQualified? ⟨i, g, scope⟩ origin root feature text kind =
      resolveQualified? ⟨j, g, scope⟩ origin root feature text kind := by
  have hmember : ∀ (object : Element) (member : String),
      ((objectEntity? ⟨i, g, scope⟩ origin object).bind fun entity =>
          resolveMember ⟨i, g, scope⟩ entity member kind) =
        (objectEntity? ⟨j, g, scope⟩ origin object).bind fun entity =>
          resolveMember ⟨j, g, scope⟩ entity member kind := by
    intro object member
    rw [← h.objectEntity?_eq object]
    -- the entity is found in both indexes, and then its members are the same
    cases hentity : objectEntity? ⟨i, g, scope⟩ origin object with
    | none => rfl
    | some entity => exact h.resolveMember_eq (h.inside.visible_objectEntity? hentity) member kind
  unfold resolveQualified?
  simp only [hmember]

theorem resolveSite_eq (h : Alike i j g scope origin package)
    (hlinks : Bounded ⟨i, g, scope⟩ package links) (root : Element) (path : ElementPath)
    (kind : ElementKind) (site : ReferenceSite) :
    resolveSite ⟨i, g, scope⟩ origin root links path kind site =
      resolveSite ⟨j, g, scope⟩ origin root links path kind site := by
  -- an anchor leads to a target that was linked before, and such targets are visible
  have hanchored : ∀ anchor : String,
      ((path.parent?.bind (links.targetOf? · anchor)).bind fun entity =>
          resolveMember ⟨i, g, scope⟩ entity site.text site.target) =
        (path.parent?.bind (links.targetOf? · anchor)).bind fun entity =>
          resolveMember ⟨j, g, scope⟩ entity site.text site.target := by
    intro anchor
    cases hentity : path.parent?.bind (links.targetOf? · anchor) with
    | none => rfl
    | some entity =>
        obtain ⟨parent, -, htarget⟩ := Option.bind_eq_some_iff.mp hentity
        exact h.resolveMember_eq (hlinks.visible_targetOf? htarget) site.text site.target
  unfold resolveSite
  simp only [h.resolveQualified?_eq root, hanchored, h.resolveName_eq]

theorem linkSite_eq (h : Alike i j g scope origin package)
    (hlinks : Bounded ⟨i, g, scope⟩ package links) (root : Element) (path : ElementPath)
    (kind : ElementKind) (site : ReferenceSite) :
    linkSite ⟨i, g, scope⟩ origin root path kind links site =
      linkSite ⟨j, g, scope⟩ origin root path kind links site := by
  unfold linkSite
  rw [h.resolveSite_eq hlinks]

theorem implicitMembers_eq (h : Alike i j g scope origin package)
    (hlinks : Bounded ⟨i, g, scope⟩ package links) (path : ElementPath) (kind : ElementKind) :
    implicitMembers ⟨i, g, scope⟩ links path kind =
      implicitMembers ⟨j, g, scope⟩ links path kind := by
  unfold implicitMembers
  cases hentity : links.targetOf? path "entity" with
  | none => rfl
  | some entity =>
      dsimp only
      rw [h.view.membersOf_eq (hlinks.visible_targetOf? hentity)]

/-- Both linkers do the same with one element, and what they add is visible. -/
theorem linkElement_eq (h : Alike i j g scope origin package)
    (hlinks : Bounded ⟨i, g, scope⟩ package links) (root : Element)
    (described : ElementPath × Element) :
    linkElement ⟨i, g, scope⟩ origin root links described =
        linkElement ⟨j, g, scope⟩ origin root links described ∧
      Bounded ⟨i, g, scope⟩ package (linkElement ⟨i, g, scope⟩ origin root links described) := by
  obtain ⟨path, element⟩ := described
  obtain ⟨hfold, hbounded⟩ := foldl_eq_of_invariant
    (f := linkSite ⟨i, g, scope⟩ origin root path element.kind)
    (g := linkSite ⟨j, g, scope⟩ origin root path element.kind)
    (P := Bounded ⟨i, g, scope⟩ package)
    (fun s hs site (_ : site ∈ element.references) => ⟨h.linkSite_eq hs root path element.kind site,
      h.inside.bounded_linkSite hs root path element.kind site⟩) hlinks
  unfold linkElement
  dsimp only
  constructor
  · rw [← hfold, h.implicitMembers_eq hbounded]
  · refine ⟨hbounded.references, fun m hm => ?_⟩
    rcases List.mem_append.mp hm with hm | hm
    · exact hbounded.implicit m hm
    · exact h.inside.visible_implicitMembers hbounded hm

end Alike

/-- What makes a view of an index from a unit: the index is coherent, its entries are in
packages, and those of the unit are in the unit's package. -/
theorem confined_of_location (hcoherent : i.Coherent)
    (hids : ∀ e ∈ i.entries, Name.IsPackageId e.package) {l : Location}
    (hl : ∀ e ∈ i.entries, e.location = l → e.package = package.id) :
    i.Confined (Linker.namespacesFrom ⟨i, g, scope⟩ package) l where
  coherent := hcoherent
  isPackageId := hids
  visible_of_location := by
    intro e he hlocation
    rw [hl e he hlocation]
    exact List.mem_cons_self

theorem isPackageId_of_mem_namespacesFrom (hg : ∀ p ∈ g.toList, Name.IsPackageId p.id)
    {l : Location} (hpackage : g.packageFor? l = some package) :
    ∀ id ∈ Linker.namespacesFrom ⟨i, g, scope⟩ package, Name.IsPackageId id := by
  intro id hid
  rcases List.mem_cons.mp hid with rfl | hid
  · exact hg package (PackageGraph.mem_toList_of_packageFor? hpackage)
  · obtain ⟨q, hq, rfl⟩ := List.mem_map.mp hid
    exact hg q (PackageGraph.mem_toList_of_mem_visibleFrom hq)

/-- Indexes that agree on what is visible from a unit give it the same links, all of them
to visible entries of the expected kinds. -/
theorem link_eq_of_sameView (hg : ∀ p ∈ g.toList, Name.IsPackageId p.id) {l : Location}
    (hpackage : g.packageFor? l = some package)
    (hview : SameView i j (Linker.namespacesFrom ⟨i, g, scope⟩ package) l) (root : Element) :
    link ⟨i, g, scope⟩ l root = link ⟨j, g, scope⟩ l root ∧
      Bounded ⟨i, g, scope⟩ package (link ⟨i, g, scope⟩ l root) := by
  have horigin : Linker.origin ⟨i, g, scope⟩ l = Linker.origin ⟨j, g, scope⟩ l := by
    unfold Linker.origin rootName?
    rw [hview.entriesIn_eq]
  have halike : Alike i j g scope (Linker.origin ⟨i, g, scope⟩ l) package :=
    ⟨hview, hpackage, isPackageId_of_mem_namespacesFrom hg hpackage⟩
  unfold link
  rw [← horigin]
  exact foldl_eq_of_invariant (P := Bounded ⟨i, g, scope⟩ package)
    (fun s hs described _ => halike.linkElement_eq hs root described) bounded_empty

/-- **Declared dependencies are a boundary.**  Indexes that list the same entries, in the
same order, for the package of a unit and the packages it sees give the unit the same
links, and every target is an entry of theirs in one of these packages and of the expected
kind. -/
theorem link_eq_and_targets_visible (hi : i.Reached) (hj : j.Reached)
    (hg : ∀ p ∈ g.toList, Name.IsPackageId p.id) {l : Location} {p : Package}
    (hp : g.packageFor? l = some p)
    (hil : ∀ e ∈ i.entries, e.location = l → e.package = p.id)
    (hjl : ∀ e ∈ j.entries, e.location = l → e.package = p.id)
    (hsame : (i.entries.filter fun e => e.package ∈ p.id :: (g.visibleFrom p scope).map (·.id)) =
      j.entries.filter fun e => e.package ∈ p.id :: (g.visibleFrom p scope).map (·.id))
    (root : Element) :
    link ⟨i, g, scope⟩ l root = link ⟨j, g, scope⟩ l root ∧
      ∀ r ∈ (link ⟨i, g, scope⟩ l root).references, ∀ e, r.target = some e →
        e.kind = r.site.target ∧ e.package ∈ p.id :: (g.visibleFrom p scope).map (·.id) ∧
          i.get? e.globalId = some e ∧ j.get? e.globalId = some e := by
  have hview : SameView i j (Linker.namespacesFrom ⟨i, g, scope⟩ p) l :=
    ⟨confined_of_location hi.coherent hi.isPackageId hil,
      confined_of_location (i := j) hj.coherent hj.isPackageId hjl, hsame⟩
  obtain ⟨heq, hbounded⟩ := link_eq_of_sameView hg hp hview root
  refine ⟨heq, fun r hr e he => ?_⟩
  obtain ⟨hvisible, hkind⟩ := hbounded.references r hr e he
  have hleft : e ∈ i.visible (Linker.namespacesFrom ⟨i, g, scope⟩ p) := hvisible
  have hright := hleft
  rw [hview.visible_eq] at hright
  rw [mem_visible_iff] at hleft hright
  exact ⟨hkind, hleft.2, hi.coherent.get?_eq_some_iff.mpr ⟨hleft.1, rfl⟩,
    hj.coherent.get?_eq_some_iff.mpr ⟨hright.1, rfl⟩⟩

/-! Three packages: `a` depends on `b`, and `c` is invisible from `a`.  The unit of `a`
names an entity of `b`, one of `c`, and the one of `c` by its global identifier. -/

namespace ThreePackages

/-- A package below the root of the disk. -/
def packageOf (name : String) (dependencies : List Dependency) : Package :=
  ⟨name, name, "1.0.0", ⟨"/" ++ name⟩, ⟨"/" ++ name ++ "/package.json"⟩, dependencies⟩

/-- The packages, in the order of their roots. -/
def graph : PackageGraph :=
  ((PackageGraph.empty.insert (packageOf "a" [⟨"b", "*"⟩])).insert (packageOf "b" [])).insert
    (packageOf "c" [])

/-- A reference to an entity. -/
def superEntity (index : Nat) (text : String) : ReferenceSite :=
  ⟨"superEntities", index, text, ⟨0, 0⟩, .entity⟩

/-- The unit of `a`. -/
def root : Element :=
  { kind := .entity, id := some "X", range := ⟨0, 0⟩
    references := [superEntity 0 "Y", superEntity 1 "Z", superEntity 2 "c.Z"] }

/-- An entity that makes no references. -/
def entity (id : String) : Element :=
  { kind := .entity, id := some id, range := ⟨0, 0⟩ }

/-- The index of the units of `a` and `b`. -/
def withoutC : Index :=
  ((Index.empty.insertUnit ⟨⟨"/b/y.cm"⟩, "b", entity "Y", "Y"⟩).2.insertUnit
    ⟨⟨"/a/x.cm"⟩, "a", root, "X"⟩).2

/-- The index of the units of all three packages. -/
def withC : Index :=
  (((Index.empty.insertUnit ⟨⟨"/c/z.cm"⟩, "c", entity "Z", "Z"⟩).2.insertUnit
    ⟨⟨"/b/y.cm"⟩, "b", entity "Y", "Y"⟩).2.insertUnit ⟨⟨"/a/x.cm"⟩, "a", root, "X"⟩).2

theorem isPackageId_a : Name.IsPackageId "a" := ⟨"a", by decide, by decide⟩

theorem isPackageId_b : Name.IsPackageId "b" := ⟨"b", by decide, by decide⟩

theorem isPackageId_c : Name.IsPackageId "c" := ⟨"c", by decide, by decide⟩

theorem reached_withoutC : withoutC.Reached :=
  (Index.Reached.empty.insertUnit _ isPackageId_b).insertUnit _ isPackageId_a

theorem reached_withC : withC.Reached :=
  ((Index.Reached.empty.insertUnit _ isPackageId_c).insertUnit _ isPackageId_b).insertUnit _
    isPackageId_a

theorem isPackageId_graph : ∀ p ∈ graph.toList, Name.IsPackageId p.id := by
  have hlist : graph.toList.map (·.id) = ["a", "b", "c"] := by decide +kernel
  intro p hp
  have hid : p.id ∈ graph.toList.map (·.id) := List.mem_map_of_mem hp
  rw [hlist] at hid
  simp only [List.mem_cons, List.not_mem_nil, or_false] at hid
  rcases hid with h | h | h
  · exact h ▸ isPackageId_a
  · exact h ▸ isPackageId_b
  · exact h ▸ isPackageId_c

end ThreePackages

open ThreePackages in
theorem link_eq_and_targets_visible_threePackages :
    link ⟨withoutC, graph, .direct⟩ ⟨"/a/x.cm"⟩ root =
        link ⟨withC, graph, .direct⟩ ⟨"/a/x.cm"⟩ root ∧
      (link ⟨withC, graph, .direct⟩ ⟨"/a/x.cm"⟩ root).references.map
          (fun r => r.target.map (·.globalId)) = [some "b.Y", none, none] := by
  refine ⟨(link_eq_and_targets_visible reached_withoutC reached_withC isPackageId_graph
    (p := packageOf "a" [⟨"b", "*"⟩]) ?_ ?_ ?_ ?_ root).1, ?_⟩ <;> decide +kernel

end Linker
end ModelWorkspace
