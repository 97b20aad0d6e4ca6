import ModelWorkspace.Json.Printer
import ModelWorkspace.Proofs.Workspace.Offers

/-!
# Packages that do not see each other

Every reference of a settled workspace is made in a package, and what it means belongs to a
package too.  The latter has the identifier of the former or of a package that the former
sees.  Identifiers are made from the names in manifests and keep letters, digits and `_`
only.  So where no two names give one identifier, references lead to the own package and to
those that are seen, and nowhere else (`run_targets_seen`).

Where two names do give one identifier, their packages are not told apart: elements of the
one can be named in the other, and by everyone who sees the other, without any dependency.
-/

namespace ModelWorkspace

/-- The identifier of a package is made from its name. -/
theorem Package.IsDeclared.id_eq {p : Package} (h : p.IsDeclared) :
    p.id = Name.packageId p.name := by
  obtain ⟨text, manifest, -, hp⟩ := h
  obtain ⟨root, -, heq⟩ := Option.map_eq_some_iff.mp hp
  rw [← heq]

theorem PackageGraph.Declared.id_eq {g : PackageGraph} (h : g.Declared) {p : Package}
    (hp : p ∈ g.toList) : p.id = Name.packageId p.name := by
  obtain ⟨root, hroot⟩ := LocationMap.mem_values_iff.mp hp
  exact (h root p hroot).2.id_eq

namespace PackageGraph

/-- What may be named in a package belongs to the package itself or to one that it sees. -/
def Admits (g : PackageGraph) (scope : DependencyScope) (p q : Package) : Prop :=
  q = p ∨ q ∈ g.visibleFrom p scope

theorem mem_toList_of_admits {g : PackageGraph} {scope : DependencyScope} {p q : Package}
    (hp : p ∈ g.toList) (h : g.Admits scope p q) : q ∈ g.toList := by
  rcases h with rfl | h
  · exact hp
  · exact mem_toList_of_mem_visibleFrom h

end PackageGraph

namespace Workspace

variable {ws : Workspace} {l : Location} {u : SourceUnit} {p : Package}

/-- References of a tracked unit mean elements of its package and of those it sees. -/
theorem Settled.bounded (h : ws.Settled) (hu : ws.units.get? l = some u)
    (hmodel : u.isModel = true) (hp : ws.packageOf? l = some p) :
    ws.linker.Bounded p u.links := by
  obtain ⟨q, hq, hinside⟩ := h.inside hu hmodel
  obtain rfl : p = q := Option.some.inj (hp.symm.trans hq)
  rw [h.links_eq hu hmodel]
  unfold Linker.linkDocument
  cases u.document.root with
  | none => exact Linker.bounded_empty
  | some root =>
      exact (Linker.link_eq_of_sameView h.declared.isPackageId hp
        ⟨hinside.confined, hinside.confined, rfl⟩ root).2

/-- What a reference means belongs to a package whose identifier is that of a package which
may be named there. -/
theorem Settled.exists_owner_of_target (h : ws.Settled) (hu : ws.units.get? l = some u)
    (hmodel : u.isModel = true) (hp : ws.packageOf? l = some p) {r : LinkedReference}
    (hr : r ∈ u.links.references) {e : IndexEntry} (he : r.target = some e) :
    ∃ q, ws.packageOf? e.location = some q ∧
      ∃ d, ws.packages.Admits ws.config.dependencyScope p d ∧ d.id = q.id := by
  obtain ⟨hvisible, -⟩ := (h.bounded hu hmodel hp).references r hr e he
  obtain ⟨hmem, hpackage⟩ := Index.mem_visible_iff.mp hvisible
  obtain ⟨-, -, -, -, howner⟩ := h.entry hmem
  obtain ⟨q, hq, hid⟩ := Option.map_eq_some_iff.mp howner
  refine ⟨q, hq, ?_⟩
  rw [hid]
  rcases List.mem_cons.mp hpackage with hown | hseen
  · exact ⟨p, Or.inl rfl, hown.symm⟩
  · obtain ⟨d, hd, hdid⟩ := List.mem_map.mp hseen
    exact ⟨d, Or.inr hd, hdid⟩

/-- **Packages see each other only through dependencies, as far as their names tell them
apart.**  After every run, what a reference in a unit of a package means belongs to a package
whose name gives the same identifier as the name of the former package or of one that it sees.
If no two packages have names that give the same identifier, it belongs to the former package
itself or to one that it sees. -/
theorem run_targets_seen (config : WorkspaceConfig) (operations : List Operation) :
    ((Workspace.ofConfig config).run operations).GivesUnless (SplitBy operations) fun ws =>
      ∀ l u p, ws.unit? l = some u → u.isModel = true → ws.packageOf? l = some p →
        ∀ r ∈ u.links.references, ∀ e, r.target = some e →
          ∃ q, ws.packageOf? e.location = some q ∧
            (∃ d, ws.packages.Admits ws.config.dependencyScope p d ∧
              Name.packageId d.name = Name.packageId q.name) ∧
            ((∀ a ∈ ws.packages.toList, ∀ b ∈ ws.packages.toList,
                Name.packageId a.name = Name.packageId b.name → a = b) →
              ws.packages.Admits ws.config.dependencyScope p q) := by
  refine ((Settled.ofConfig config).run operations).mono ?_
  intro ws hsettled l u p hu hmodel hp r hr e he
  obtain ⟨q, hq, d, hd, hid⟩ := hsettled.exists_owner_of_target hu hmodel hp hr he
  have hpMem : p ∈ ws.packages.toList := PackageGraph.mem_toList_of_packageFor? hp
  have hqMem : q ∈ ws.packages.toList := PackageGraph.mem_toList_of_packageFor? hq
  have hdMem : d ∈ ws.packages.toList := PackageGraph.mem_toList_of_admits hpMem hd
  rw [hsettled.declared.id_eq hdMem, hsettled.declared.id_eq hqMem] at hid
  refine ⟨q, hq, ⟨d, hd, hid⟩, fun hunique => ?_⟩
  rw [← hunique d hdMem q hqMem hid]
  exact hd

end Workspace

namespace Histories

open Change Workspace

/-- A manifest with a name and with dependencies on packages of any version. -/
def packageAt (path name : String) (dependencies : List String) : Location × String :=
  (⟨path⟩, Json.objectText [("name", Json.quote name),
    ("dependencies", Json.objectText (dependencies.map fun d => (d, Json.quote "*")))])

/-- A model file with an entity that names another one. -/
def heirAt (path id parent : String) : Location × String :=
  (⟨path⟩, "entity:\n  id: " ++ id ++ "\n  superEntities: [" ++ parent ++ "]\n")

/-- The roots of the packages, each with its name and the roots of the packages it sees. -/
def sightsOf (ws : Workspace) : List (Location × String × List Location) :=
  ws.packages.toList.map fun p =>
    (p.root, p.name, (ws.packages.visibleFrom p ws.config.dependencyScope).map (·.root))

/-- The references of a file as they are written, each with the root of the package that owns
what it means. -/
def meansIn (l : Location) (ws : Workspace) : List (String × Option Location) :=
  (ws.references l).map fun r =>
    (r.site.text, (r.target.bind fun e => ws.packageOf? e.location).map (·.root))

/-- A package that depends on a second one and names an entity of it. -/
def dependent : List Change :=
  edits Disk.empty [packageAt "/p/package.json" "p" ["q"], packageAt "/q/package.json" "q" [],
    entityAt "/q/t.cm" "T", heirAt "/p/s.cm" "S" "T"]

/-- What the first reference of a file means, with the packages that own the file and the
element. -/
def firstTarget (changes : List Change) (l : Location) :
    Option (Bool × IndexEntry × Package × Package) := do
  let ws ← (updates {} changes).toOption
  let u ← ws.unit? l
  let r ← u.links.references.head?
  let e ← r.target
  return (u.isModel, e, ← ws.packageOf? l, ← ws.packageOf? e.location)

theorem run_targets_seen_dependent :
    ∃ ws u p r e q, updates {} dependent = .ok ws ∧ ws.unit? ⟨"/p/s.cm"⟩ = some u ∧
      ws.packageOf? ⟨"/p/s.cm"⟩ = some p ∧ p.name = "p" ∧ r ∈ u.links.references ∧
      r.target = some e ∧ ws.packageOf? e.location = some q ∧ q.name = "q" ∧
      q ∈ ws.packages.visibleFrom p ws.config.dependencyScope := by
  obtain ⟨ws, hrun, hall⟩ := (run_targets_seen {} (dependent.map Change.operation)).exists_ok
    (not_splitBy (by decide +kernel))
  have hread : updates {} dependent = .ok ws := hrun
  have hfound : (firstTarget dependent ⟨"/p/s.cm"⟩).map (fun (model, _, p, q) =>
      (model, p.name, q.name)) = some (true, "p", "q") := by
    decide +kernel
  obtain ⟨⟨model, target, owner, other⟩, hfirst, heq⟩ := Option.map_eq_some_iff.mp hfound
  simp only [Prod.mk.injEq] at heq
  obtain ⟨rfl, howner, hother⟩ := heq
  unfold firstTarget at hfirst
  rw [hread] at hfirst
  simp only [Except.toOption, Option.bind_eq_bind, Option.bind_some, Option.pure_def,
    Option.bind_eq_some_iff, Option.some.injEq, Prod.mk.injEq] at hfirst
  obtain ⟨u, hu, r, hr, e, he, p, hp, q, hq, hmodel, rfl, rfl, rfl⟩ := hfirst
  obtain ⟨q', hq', -, hadmits⟩ := hall _ u p hu hmodel hp r (List.mem_of_mem_head? hr) e he
  obtain rfl : q = q' := Option.some.inj (hq.symm.trans hq')
  have hunique : (updates {} dependent).toOption.map (fun ws => decide
      (∀ a ∈ ws.packages.toList, ∀ b ∈ ws.packages.toList,
        Name.packageId a.name = Name.packageId b.name → a = b)) = some true := by
    decide +kernel
  refine ⟨ws, u, p, r, e, q, hread, hu, hp, howner, List.mem_of_mem_head? hr, he, hq, hother, ?_⟩
  rcases hadmits (of_decide_eq_true (eq_of_updates hread hunique)) with rfl | hseen
  · rw [howner] at hother
    exact absurd hother (by decide)
  · exact hseen

/-- Two packages without dependencies whose names differ in a character that is not kept. -/
def lookalikes : List Change :=
  edits Disk.empty [packageAt "/p/package.json" "a-b" [], packageAt "/q/package.json" "a_b" [],
    entityAt "/q/t.cm" "T", heirAt "/p/s.cm" "S" "T"]

/-- A package that depends on the first of two packages with the same name, and names an
entity of the second one. -/
def namesakes : List Change :=
  edits Disk.empty [packageAt "/p/package.json" "p" ["q"], packageAt "/q/package.json" "q" [],
    packageAt "/r/package.json" "q" [], entityAt "/r/t.cm" "T", heirAt "/p/s.cm" "S" "T"]

/-- A reference may lead to a package that has another name and is not seen: to one whose name
gives the same identifier, or that of a package which is seen. -/
theorem targets_may_be_unseen :
    (updates {} lookalikes).toOption.map (fun ws => (sightsOf ws, meansIn ⟨"/p/s.cm"⟩ ws)) =
        some ([(⟨"/p"⟩, "a-b", []), (⟨"/q"⟩, "a_b", [])], [("T", some ⟨"/q"⟩)]) ∧
      (updates {} namesakes).toOption.map (fun ws => (sightsOf ws, meansIn ⟨"/p/s.cm"⟩ ws)) =
        some ([(⟨"/p"⟩, "p", [⟨"/q"⟩]), (⟨"/q"⟩, "q", []), (⟨"/r"⟩, "q", [])],
          [("T", some ⟨"/r"⟩)]) := by
  constructor
  · decide +kernel
  · decide +kernel

end Histories
end ModelWorkspace
