import ModelWorkspace.Proofs.Index.Trees
import ModelWorkspace.Proofs.Link.Locality
import ModelWorkspace.Proofs.Package.Closure

/-!
# A wider scope never retargets a reference

What a package sees directly comes first among what it sees transitively
(`visibleFrom_direct_isPrefix`).  So a name that is found in one of these packages means the
same in the wider scope.

The other names are global identifiers, and packages that are only seen transitively are
asked for them first.  But what such a package lists under this text has one dot more than
the element that is meant, so it is of another kind (`eq_of_inPackage?_globalId`).  Thus every
reference that is resolved directly keeps its target (`link_transitive_of_direct`).
-/

namespace ModelWorkspace

/-! ## Packages with names -/

/-- A package of a manifest that gives it a name. -/
def Package.IsNamed (p : Package) : Prop :=
  ∃ manifest : Manifest, manifest.name ≠ "" ∧ Package.ofManifest p.manifest manifest = some p

theorem Package.IsNamed.isPackageId {p : Package} (h : p.IsNamed) : Name.IsPackageId p.id := by
  obtain ⟨manifest, hname, hp⟩ := h
  obtain ⟨root, -, heq⟩ := Option.map_eq_some_iff.mp hp
  exact ⟨manifest.name, hname, by rw [← heq]⟩

namespace PackageGraph

variable {g : PackageGraph}

/-- All packages come from manifests that give them names. -/
def Named (g : PackageGraph) : Prop :=
  ∀ p ∈ g.toList, p.IsNamed

theorem named_empty : empty.Named :=
  fun _ hp => absurd hp List.not_mem_nil

theorem Named.insert (h : g.Named) {l : Location} (manifest : Manifest) {p : Package}
    (hname : manifest.name ≠ "") (hp : Package.ofManifest l manifest = some p) :
    (g.insert p).Named := by
  have hl : p.manifest = l := by
    obtain ⟨root, -, rfl⟩ := Option.map_eq_some_iff.mp hp
    rfl
  intro q hq
  obtain ⟨root, hroot⟩ := LocationMap.mem_values_iff.mp hq
  rcases LocationMap.get?_insert_eq_some_iff.mp hroot with ⟨-, rfl⟩ | ⟨-, hold⟩
  · exact ⟨manifest, hname, by rw [hl, hp]⟩
  · exact h q (LocationMap.mem_values_iff.mpr ⟨root, hold⟩)

end PackageGraph

namespace Linker

variable {index : Index} {g : PackageGraph} {origin : Origin} {package : Package}
  {name : String} {kind : ElementKind} {e : IndexEntry}

theorem namespacesFrom_direct_isPrefix (index : Index) (g : PackageGraph) (package : Package)
    (scope : DependencyScope) :
    namespacesFrom ⟨index, g, .direct⟩ package <+: namespacesFrom ⟨index, g, scope⟩ package := by
  unfold namespacesFrom
  exact (List.prefix_cons_inj _).mpr
    ((g.visibleFrom_direct_isPrefix package scope).map fun p => p.id)

/-! ## Names -/

/-- The index of the units that are named in packages of a graph. -/
abbrev IndexedIn (g : PackageGraph) (index : Index) : Prop :=
  index.OfTrees (fun id => ∃ p ∈ g.toList, p.id = id) Element.DeclaresIdentifiers

/-- A global identifier, read as a name in a package, means no other element of the kind, if
it means none in its own package. -/
theorem eq_of_inPackage?_globalId (hg : g.Named) (hindex : IndexedIn g index)
    {scope : DependencyScope} {p : String} {found : IndexEntry} (hp : Name.IsPackageId p)
    (he : index.get? name = some e) (hkind : e.kind = kind)
    (hnone : inPackage? ⟨index, g, scope⟩ e.package name kind = none)
    (hfound : inPackage? ⟨index, g, scope⟩ p name kind = some found) : found = e := by
  have hids : ∀ id, (∃ p ∈ g.toList, p.id = id) → Name.IsPackageId id := by
    rintro id ⟨p, hp, rfl⟩
    exact (hg p hp).isPackageId
  obtain ⟨hmem, hname⟩ := hindex.coherent.get?_eq_some_iff.mp he
  unfold inPackage? at hnone hfound
  rw [Option.filter_eq_some_iff, beq_iff_eq] at hfound
  obtain ⟨hget, hsame⟩ := hfound
  obtain ⟨hother, hid⟩ := hindex.coherent.get?_eq_some_iff.mp hget
  unfold Name.globalId at hid
  rw [if_neg hp.ne_empty] at hid
  by_cases hbare : name = p
  · rw [if_pos hbare, ← hbare, ← hname] at hid
    exact hindex.coherent.entry_unique hother hmem hid
  · rw [if_neg hbare] at hid
    have hdots : found.globalId.toList.count '.' = 1 + name.toList.count '.' := by
      have hcount := Name.count_dot_nested p name
      rw [List.count_eq_zero.mpr hp.dot_notMem, Nat.zero_add] at hcount
      rw [hid]
      exact hcount
    exfalso
    rcases hindex.count_dot_globalId hids hmem with ⟨hwhole, hown⟩ | hdotted
    · -- the bare identifier of a package is the name of an element in it
      rw [Option.filter_eq_none_iff] at hnone
      refine hnone e ?_ (beq_iff_eq.mpr hkind)
      have hself : Name.globalId e.package name = e.globalId := by
        rw [hindex.coherent.globalId_eq e hmem, ← hname, hwhole, hown]
      rw [hself]
      exact hindex.coherent.get?_eq_some_iff.mpr ⟨hmem, rfl⟩
    · rw [← hname, hdotted, hkind, ← hsame] at hdots
      rcases hindex.count_dot_globalId hids hother with ⟨hwhole, -⟩ | hlevel
      · have hnodot := (hids _ (hindex.package hother)).dot_notMem
        rw [hwhole, List.count_eq_zero.mpr hnodot] at hdots
        omega
      · omega

theorem resolveName_transitive_of_direct (hg : g.Named) (hindex : IndexedIn g index)
    (hpackage : ∀ p ∈ origin.package, p ∈ g.toList)
    (he : resolveName ⟨index, g, .direct⟩ origin name kind = some e) :
    resolveName ⟨index, g, .transitive⟩ origin name kind = some e := by
  unfold resolveName at he ⊢
  rw [Option.orElse_eq_or, Option.or_eq_some_iff] at he ⊢
  refine he.imp id (And.imp id fun he => ?_)
  cases hp : origin.package with
  | none =>
      rw [hp] at he
      cases he
  | some package =>
      rw [hp] at he
      dsimp only at he
      -- the scope decides on the list of packages, not on what is found in them
      show (((namespacesFrom ⟨index, g, .transitive⟩ package).findSome? fun id =>
        inPackage? ⟨index, g, .direct⟩ id name kind).orElse fun _ =>
          byGlobalId? ⟨index, g, .direct⟩ (namespacesFrom ⟨index, g, .transitive⟩ package) name
            kind) = some e
      obtain ⟨others, hnamespaces⟩ := namespacesFrom_direct_isPrefix index g package .transitive
      have hothers : ∀ id ∈ others, Name.IsPackageId id := by
        intro id hid
        have hmem := List.mem_append_right (namespacesFrom ⟨index, g, .direct⟩ package) hid
        rw [hnamespaces] at hmem
        rcases List.mem_cons.mp hmem with rfl | hseen
        · exact (hg package (hpackage package hp)).isPackageId
        · obtain ⟨q, hq, rfl⟩ := List.mem_map.mp hseen
          exact (hg q (PackageGraph.mem_toList_of_mem_visibleFrom hq)).isPackageId
      rw [Option.orElse_eq_or, Option.or_eq_some_iff] at he ⊢
      rw [← hnamespaces, List.findSome?_append]
      rcases he with hnear | ⟨hnone, hglobal⟩
      · exact Or.inl (by rw [hnear]; rfl)
      · -- the text is the global identifier of an element that is seen directly
        rw [hnone, Option.none_or]
        unfold byGlobalId? at hglobal ⊢
        rw [Option.filter_eq_some_iff, Bool.and_eq_true, beq_iff_eq, List.contains_iff_mem]
          at hglobal
        obtain ⟨hget, hkind, hseen⟩ := hglobal
        cases hfar : others.findSome? fun id =>
            inPackage? ⟨index, g, .direct⟩ id name kind with
        | some found =>
            obtain ⟨id, hid, hfound⟩ := List.exists_of_findSome?_eq_some hfar
            rw [List.findSome?_eq_none_iff] at hnone
            rw [eq_of_inPackage?_globalId hg hindex (hothers id hid) hget hkind
              (hnone e.package hseen) hfound]
            exact Or.inl rfl
        | none =>
            refine Or.inr ⟨rfl, ?_⟩
            rw [Option.filter_eq_some_iff, Bool.and_eq_true, beq_iff_eq, List.contains_iff_mem]
            exact ⟨hget, hkind, List.mem_append_left _ hseen⟩

/-! ## References -/

/-- Of two links of the same reference the second one has the target of the first one, if
that has one. -/
def Keeps (narrow wide : LinkedReference) : Prop :=
  narrow.path = wide.path ∧ narrow.site = wide.site ∧
    ∀ e, narrow.target = some e → wide.target = some e

theorem find?_of_keeps {ns ws : List LinkedReference} (h : List.Forall₂ Keeps ns ws)
    {path : ElementPath} {property : String}
    (he : (ns.find? fun r => r.path == path && r.site.property == property &&
      r.site.index == 0).bind (·.target) = some e) :
    (ws.find? fun r => r.path == path && r.site.property == property &&
      r.site.index == 0).bind (·.target) = some e := by
  induction h with
  | nil => cases he
  | @cons first other _ _ hkeeps _ ih =>
      obtain ⟨hpath, hsite, htarget⟩ := hkeeps
      rw [List.find?_cons] at he ⊢
      rw [← hpath, ← hsite]
      split at he
      · exact htarget e he
      · exact ih he

/-- Links of the same references, in the same order, that keep what is resolved. -/
def KeepsAll (narrow wide : Links) : Prop :=
  List.Forall₂ Keeps narrow.references wide.references

variable {narrow wide : Links} {path : ElementPath} {root : Element}

theorem KeepsAll.targetOf? (h : KeepsAll narrow wide) {property : String}
    (he : narrow.targetOf? path property = some e) : wide.targetOf? path property = some e :=
  find?_of_keeps (List.rel_reverse h) he

section Unit

variable (hg : g.Named) (hindex : IndexedIn g index)
  (hpackage : ∀ p ∈ origin.package, p ∈ g.toList)
include hg hindex hpackage

theorem objectEntity?_transitive_of_direct {object : Element}
    (he : objectEntity? ⟨index, g, .direct⟩ origin object = some e) :
    objectEntity? ⟨index, g, .transitive⟩ origin object = some e := by
  obtain ⟨site, hsite, hname⟩ := Option.bind_eq_some_iff.mp he
  exact Option.bind_eq_some_iff.mpr
    ⟨site, hsite, resolveName_transitive_of_direct hg hindex hpackage hname⟩

/-- Whether a text is of the form `object.member` does not depend on the scope, and the member
is one of the same entity. -/
theorem resolveQualified?_transitive_of_direct (root : Element) (feature text : String)
    (kind : ElementKind) :
    resolveQualified? ⟨index, g, .direct⟩ origin root feature text kind = none ∧
        resolveQualified? ⟨index, g, .transitive⟩ origin root feature text kind = none ∨
      ∃ narrow wide,
        resolveQualified? ⟨index, g, .direct⟩ origin root feature text kind = some narrow ∧
        resolveQualified? ⟨index, g, .transitive⟩ origin root feature text kind = some wide ∧
          ∀ e, narrow = some e → wide = some e := by
  unfold resolveQualified?
  cases splitAtDot? text with
  | none => exact Or.inl ⟨rfl, rfl⟩
  | some parts =>
      cases hobject : (root.containment? feature).bind fun objects =>
          objects.elements.find? (·.id == some parts.1) with
      | none =>
          left
          simp only [Option.bind_eq_bind, Option.bind_some, ← Option.bind_assoc, hobject]
          exact ⟨rfl, rfl⟩
      | some object =>
          right
          simp only [Option.bind_eq_bind, Option.bind_some, ← Option.bind_assoc, hobject,
            Option.pure_def]
          refine ⟨_, _, rfl, rfl, fun e he => ?_⟩
          obtain ⟨entity, hentity, hmember⟩ := Option.bind_eq_some_iff.mp he
          exact Option.bind_eq_some_iff.mpr ⟨entity,
            objectEntity?_transitive_of_direct hg hindex hpackage hentity, hmember⟩

theorem resolveSite_transitive_of_direct (hlinks : KeepsAll narrow wide) (site : ReferenceSite)
    (he : resolveSite ⟨index, g, .direct⟩ origin root narrow path kind site = some e) :
    resolveSite ⟨index, g, .transitive⟩ origin root wide path kind site = some e := by
  unfold resolveSite at he ⊢
  dsimp only at he ⊢
  -- what the qualifier says comes first, then the anchor, then the name
  have hqualified : ∀ qualifier : Option String,
      (qualifier.bind fun feature => resolveQualified? ⟨index, g, .direct⟩ origin root feature
          site.text site.target) = none ∧
        (qualifier.bind fun feature => resolveQualified? ⟨index, g, .transitive⟩ origin root
          feature site.text site.target) = none ∨
      ∃ found other, (qualifier.bind fun feature => resolveQualified? ⟨index, g, .direct⟩ origin
          root feature site.text site.target) = some found ∧
        (qualifier.bind fun feature => resolveQualified? ⟨index, g, .transitive⟩ origin root
          feature site.text site.target) = some other ∧ ∀ e, found = some e → other = some e := by
    rintro (_ | feature)
    · exact Or.inl ⟨rfl, rfl⟩
    · exact resolveQualified?_transitive_of_direct hg hindex hpackage root feature site.text
        site.target
  rcases hqualified _ with ⟨hnarrow, hwide⟩ | ⟨found, other, hnarrow, hwide, hkeeps⟩
  · rw [hnarrow] at he
    rw [hwide]
    dsimp only at he ⊢
    split at he
    · obtain ⟨entity, hentity, hmember⟩ := Option.bind_eq_some_iff.mp he
      obtain ⟨parent, hparent, htarget⟩ := Option.bind_eq_some_iff.mp hentity
      exact Option.bind_eq_some_iff.mpr ⟨entity,
        Option.bind_eq_some_iff.mpr ⟨parent, hparent, hlinks.targetOf? htarget⟩, hmember⟩
    · exact resolveName_transitive_of_direct hg hindex hpackage he
  · rw [hnarrow] at he
    rw [hwide]
    exact hkeeps e he

theorem linkElement_transitive_of_direct (hlinks : KeepsAll narrow wide)
    (described : ElementPath × Element) :
    KeepsAll (linkElement ⟨index, g, .direct⟩ origin root narrow described)
      (linkElement ⟨index, g, .transitive⟩ origin root wide described) := by
  have hsites := List.foldl_rel (r := KeepsAll) (l := described.2.references)
    (f := linkSite ⟨index, g, .direct⟩ origin root described.1 described.2.kind)
    (g := linkSite ⟨index, g, .transitive⟩ origin root described.1 described.2.kind) hlinks
    fun site _ before other hbefore => List.rel_append hbefore (.cons ⟨rfl, rfl, fun e he =>
      resolveSite_transitive_of_direct hg hindex hpackage hbefore site he⟩ .nil)
  exact hsites

end Unit

/-- **A wider scope never retargets a reference.**  In a graph of packages with names, and an
index of trees of these packages that declare valid identifiers, every reference that is
resolved under direct dependencies has the same target under transitive ones. -/
theorem link_transitive_of_direct (hg : g.Named) (hindex : IndexedIn g index) (l : Location)
    (root : Element) :
    List.Forall₂ (fun direct transitive : LinkedReference => direct.path = transitive.path ∧
        direct.site = transitive.site ∧
          ∀ e, direct.target = some e → transitive.target = some e)
      (link ⟨index, g, .direct⟩ l root).references
      (link ⟨index, g, .transitive⟩ l root).references := by
  have hpackage : ∀ p ∈ (Linker.origin ⟨index, g, .direct⟩ l).package, p ∈ g.toList :=
    fun p hp => PackageGraph.mem_toList_of_packageFor? hp
  have hlinks := List.foldl_rel (r := KeepsAll) (l := root.descendants)
    (f := linkElement ⟨index, g, .direct⟩ (Linker.origin ⟨index, g, .direct⟩ l) root)
    (g := linkElement ⟨index, g, .transitive⟩ (Linker.origin ⟨index, g, .direct⟩ l) root)
    (a := {}) (b := {}) .nil
    fun described _ _ _ hlinks => linkElement_transitive_of_direct hg hindex hpackage hlinks described
  exact hlinks

/-! Three packages in a chain: `a` depends on `b`, and `b` on `c`.  A mapping of `a` names an
entity of `b`, by its name and by its global identifier, members of it, and an entity of `c`. -/

namespace ChainOfPackages

open ThreePackages (packageOf)

/-- The packages, in the order of their roots. -/
def graph : PackageGraph :=
  ((PackageGraph.empty.insert (packageOf "a" [⟨"b", "*"⟩])).insert
    (packageOf "b" [⟨"c", "*"⟩])).insert (packageOf "c" [])

/-- The tree of a text. -/
def treeOf (text : String) : Element :=
  (Document.ofText text).root.getD { kind := .entity, range := ⟨0, 0⟩ }

/-- An entity of `c`. -/
def entityOfC : String :=
  "entity:\n  id: Z\n"

/-- An entity of `b`. -/
def entityOfB : String :=
  "entity:\n  id: Y\n  attributes:\n    - id: k\n"

/-- A mapping of `a`. -/
def mappingOfA : String :=
  "mapping:\n  id: M\n  sources:\n    - id: S\n      entity: Y\n    - id: T\n" ++
    "      entity: Z\n  target:\n    entity: b.Y\n    mappings:\n      - attribute: k\n" ++
    "        source: S.k\n"

/-- The index of all three units. -/
def units : Index :=
  (((Index.empty.insertUnit ⟨⟨"/c/z.cm"⟩, "c", treeOf entityOfC, "Z"⟩).2.insertUnit
    ⟨⟨"/b/y.cm"⟩, "b", treeOf entityOfB, "Y"⟩).2.insertUnit
      ⟨⟨"/a/m.cm"⟩, "a", treeOf mappingOfA, "M"⟩).2

theorem named_graph : graph.Named := by
  have hnamed : ∀ name dependencies, Package.ofManifest ⟨"/" ++ name ++ "/package.json"⟩
      ⟨name, "1.0.0", dependencies⟩ = some (packageOf name dependencies) → name ≠ "" →
        ∀ {g : PackageGraph}, g.Named → (g.insert (packageOf name dependencies)).Named :=
    fun name dependencies hp hname g hg =>
      hg.insert ⟨name, "1.0.0", dependencies⟩ hname hp
  refine hnamed "c" [] (by decide +kernel) (by decide) (hnamed "b" [⟨"c", "*"⟩]
    (by decide +kernel) (by decide) (hnamed "a" [⟨"b", "*"⟩] (by decide +kernel) (by decide)
      PackageGraph.named_empty))

theorem root_ofText {text : String} (h : (Document.ofText text).root.isSome = true) :
    (Document.ofText text).root = some (treeOf text) := by
  obtain ⟨root, hroot⟩ := Option.isSome_iff_exists.mp h
  rw [treeOf, hroot]
  rfl

theorem ofTrees_insertUnit {packages : String → Prop} {trees : Element → Prop}
    [DecidablePred trees] {i : Index} (h : i.OfTrees packages trees) {text p id : String}
    (l : Location) (hp : packages p)
    (htext : ((Document.ofText text).root.any fun root => trees root ∧ root.id = some id) = true) :
    (i.insertUnit ⟨l, p, treeOf text, id⟩).2.OfTrees packages trees := by
  obtain ⟨root, hroot, hall⟩ := (Option.any_eq_true _ _).mp htext
  obtain ⟨htree, hid⟩ := of_decide_eq_true hall
  obtain rfl := Option.some.inj (hroot.symm.trans (root_ofText (Option.isSome_of_eq_some hroot)))
  refine h.insertUnit (l := l) hp (Document.isLowered_root hroot) htree ?_
  unfold UnitPlan.ofRoot
  rw [hid]

theorem mem_ids_graph {id : String} (h : id ∈ ["a", "b", "c"]) : ∃ p ∈ graph.toList, p.id = id := by
  have hids : graph.toList.map (·.id) = ["a", "b", "c"] := by decide +kernel
  rw [← hids] at h
  exact List.mem_map.mp h

theorem indexedIn_units : IndexedIn graph units := by
  rw [units]
  refine ofTrees_insertUnit ?_ ⟨"/a/m.cm"⟩ (mem_ids_graph (by decide)) (by decide +kernel)
  refine ofTrees_insertUnit ?_ ⟨"/b/y.cm"⟩ (mem_ids_graph (by decide)) (by decide +kernel)
  exact ofTrees_insertUnit .empty ⟨"/c/z.cm"⟩ (mem_ids_graph (by decide)) (by decide +kernel)

end ChainOfPackages

open ChainOfPackages in
theorem link_transitive_of_direct_chain :
    ((link ⟨units, graph, .direct⟩ ⟨"/a/m.cm"⟩ (treeOf mappingOfA)).references.map
          (fun r => r.target.map (·.globalId)) =
        [some "b.Y", none, some "b.Y", some "b.Y.k", some "b.Y.k"] ∧
      (link ⟨units, graph, .transitive⟩ ⟨"/a/m.cm"⟩ (treeOf mappingOfA)).references.map
          (fun r => r.target.map (·.globalId)) =
        [some "b.Y", some "c.Z", some "b.Y", some "b.Y.k", some "b.Y.k"]) ∧
      List.Forall₂ (fun direct transitive : LinkedReference => direct.path = transitive.path ∧
          direct.site = transitive.site ∧
            ∀ e, direct.target = some e → transitive.target = some e)
        (link ⟨units, graph, .direct⟩ ⟨"/a/m.cm"⟩ (treeOf mappingOfA)).references
        (link ⟨units, graph, .transitive⟩ ⟨"/a/m.cm"⟩ (treeOf mappingOfA)).references :=
  ⟨by decide +kernel, link_transitive_of_direct named_graph indexedIn_units ⟨"/a/m.cm"⟩
    (treeOf mappingOfA)⟩

end Linker
end ModelWorkspace
