import ModelWorkspace.Package.Graph
import ModelWorkspace.Proofs.Name.Global
import ModelWorkspace.Proofs.Text.LocationMap

/-!
# Packages that manifests declare

In a graph whose packages are declared, every package stands at its own root and comes
from a well-formed manifest, so its identifier is one that a manifest can give.  All
operations on graphs keep this.  Every package that a query answers with is one of the
graph.
-/

namespace ModelWorkspace

/-- A package that a well-formed manifest declares. -/
def Package.IsDeclared (p : Package) : Prop :=
  ∃ text manifest, Manifest.ofText text = .ok manifest ∧
    Package.ofManifest p.manifest manifest = some p

theorem Package.IsDeclared.isPackageId {p : Package} (h : p.IsDeclared) :
    Name.IsPackageId p.id := by
  obtain ⟨text, manifest, htext, hpackage⟩ := h
  have hname : manifest.name ≠ "" := by
    unfold Manifest.ofText at htext
    split at htext
    · cases htext
    · split at htext
      · cases htext
      · rename_i hblank
        cases htext
        intro hempty
        rw [hempty] at hblank
        exact hblank rfl
  obtain ⟨root, -, heq⟩ := Option.map_eq_some_iff.mp hpackage
  exact ⟨manifest.name, hname, by rw [← heq]⟩

theorem Package.isDeclared_of_ofManifest {l : Location} {text : String} {manifest : Manifest}
    {p : Package} (htext : Manifest.ofText text = .ok manifest)
    (hpackage : Package.ofManifest l manifest = some p) :
    p.IsDeclared ∧ p.manifest = l ∧ l.parent = some p.root := by
  have hp := hpackage
  obtain ⟨root, hroot, heq⟩ := Option.map_eq_some_iff.mp hpackage
  subst heq
  exact ⟨⟨text, manifest, htext, hp⟩, rfl, hroot⟩

namespace PackageGraph

/-- Every package stands at its root and is declared. -/
def Declared (g : PackageGraph) : Prop :=
  ∀ root p, g.packages.get? root = some p → p.root = root ∧ p.IsDeclared

variable {g : PackageGraph}

/-- Graphs that answer alike are equal. -/
theorem ext_get? {g' : PackageGraph}
    (h : ∀ root, g.packages.get? root = g'.packages.get? root) : g = g' := by
  obtain ⟨packages⟩ := g
  obtain ⟨packages'⟩ := g'
  exact congrArg PackageGraph.mk (LocationMap.ext_get? h)

theorem declared_empty : Declared empty := by
  intro root p h
  rw [show empty.packages.get? root = none from rfl] at h
  cases h

theorem Declared.insert (h : g.Declared) {p : Package} (hp : p.IsDeclared) :
    (g.insert p).Declared := by
  intro root q hq
  rcases LocationMap.get?_insert_eq_some_iff.mp hq with ⟨hroot, rfl⟩ | ⟨-, hq⟩
  · exact ⟨hroot.symm, hp⟩
  · exact h root q hq

theorem Declared.erase (h : g.Declared) (root : Location) :
    Declared ⟨g.packages.erase root⟩ := by
  intro other q hq
  exact h other q (LocationMap.get?_erase_eq_some_iff.mp hq).2

theorem Declared.removeManifest (h : g.Declared) (l : Location) :
    (g.removeManifest l).Declared := by
  unfold PackageGraph.removeManifest
  split
  · exact h.erase _
  · exact h

theorem Declared.removeWithin (h : g.Declared) (l : Location) :
    (g.removeWithin l).Declared := by
  intro root q hq
  unfold PackageGraph.removeWithin at hq
  rw [LocationMap.get?_filter, Option.filter_eq_some_iff] at hq
  exact h root q hq.1

theorem Declared.isPackageId (h : g.Declared) : ∀ p ∈ g.toList, Name.IsPackageId p.id := by
  intro p hp
  obtain ⟨root, hroot⟩ := LocationMap.mem_values_iff.mp hp
  exact (h root p hroot).2.isPackageId

/-! ## Answers are packages of the graph -/

theorem get?_of_packageFor? {l : Location} {p : Package} (h : g.packageFor? l = some p) :
    ∃ root, g.packages.get? root = some p ∧ l.isBelow root = true := by
  obtain ⟨entry, hentry, rfl⟩ := Option.map_eq_some_iff.mp h
  exact ⟨entry.1, LocationMap.get?_of_deepest? hentry⟩

theorem mem_toList_of_packageFor? {l : Location} {p : Package}
    (h : g.packageFor? l = some p) : p ∈ g.toList := by
  obtain ⟨root, hroot, -⟩ := get?_of_packageFor? h
  exact LocationMap.mem_values_iff.mpr ⟨root, hroot⟩

theorem mem_toList_of_mem_newTargets {seen : List String} {ds : List Dependency} {p : Package}
    (h : p ∈ g.newTargets seen ds) : p ∈ g.toList := by
  induction ds generalizing seen with
  | nil => exact absurd h List.not_mem_nil
  | cons d ds ih =>
      unfold newTargets at h
      split at h
      · exact ih h
      · rename_i target htarget
        split at h
        · exact ih h
        · rcases List.mem_cons.mp h with rfl | h
          · exact List.mem_of_find?_eq_some htarget
          · exact ih h

theorem mem_toList_of_mem_explore {scope : DependencyScope} {start : Package} {rounds : Nat}
    {queue found : List Package} (hfound : ∀ q ∈ found, q ∈ g.toList) {p : Package}
    (h : p ∈ g.explore scope start rounds queue found) : p ∈ g.toList := by
  induction rounds generalizing queue found with
  | zero => exact hfound p h
  | succ rounds ih =>
      cases queue with
      | nil => exact hfound p h
      | cons q queue =>
          refine ih ?_ h
          intro r hr
          rcases List.mem_append.mp hr with hr | hr
          · exact hfound r hr
          · exact mem_toList_of_mem_newTargets hr

theorem mem_toList_of_mem_visibleFrom {p q : Package} {scope : DependencyScope}
    (h : q ∈ g.visibleFrom p scope) : q ∈ g.toList :=
  mem_toList_of_mem_explore (fun _ hr => absurd hr List.not_mem_nil) h

end PackageGraph
end ModelWorkspace
