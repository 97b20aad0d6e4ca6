import ModelWorkspace.Name.Global
import ModelWorkspace.Package.Manifest
import ModelWorkspace.Text.LocationMap

/-!
# Packages and what they see

A package owns the files below its root directory, the one that holds its
manifest; where roots are nested, the deepest one owns.  A package sees the
packages that its manifest names, and in the transitive scope also those that
these see.  Names lead to the first package of that name in the order of roots.
-/

namespace ModelWorkspace

/-- Which dependencies a package sees. -/
inductive DependencyScope where
  | direct
  | transitive
deriving DecidableEq, Repr, Inhabited

/-- A package of the workspace. -/
structure Package where
  id : String
  name : String
  version : String
  root : Location
  manifest : Location
  dependencies : List Dependency
deriving DecidableEq, Repr

namespace Package

/-- The package that a manifest at a location declares.  A location without a
directory declares none. -/
def ofManifest (location : Location) (manifest : Manifest) : Option Package :=
  location.parent.map fun root =>
    { id := Name.packageId manifest.name, name := manifest.name, version := manifest.version
      root := root, manifest := location, dependencies := manifest.dependencies }

/-- Whether a location lies below the root of a package. -/
def contains (p : Package) (l : Location) : Bool :=
  l.isBelow p.root

end Package

/-- All packages of a workspace by their roots. -/
structure PackageGraph where
  packages : LocationMap Package
deriving Repr

namespace PackageGraph

/-- The graph without packages. -/
def empty : PackageGraph :=
  ⟨LocationMap.empty⟩

instance : Inhabited PackageGraph := ⟨empty⟩

/-- The packages in the order of their roots. -/
def toList (g : PackageGraph) : List Package :=
  g.packages.values

/-- The graph with a package, in place of any other at its root. -/
def insert (g : PackageGraph) (p : Package) : PackageGraph :=
  ⟨g.packages.insert p.root p⟩

/-- The package at a root. -/
def atRoot? (g : PackageGraph) (root : Location) : Option Package :=
  g.packages.get? root

/-- The package at the directory that holds a manifest. -/
def byManifest? (g : PackageGraph) (manifest : Location) : Option Package :=
  manifest.parent.bind g.atRoot?

/-- The graph without the package at the directory that holds a manifest. -/
def removeManifest (g : PackageGraph) (manifest : Location) : PackageGraph :=
  match manifest.parent with
  | some root => ⟨g.packages.erase root⟩
  | none => g

/-- The packages whose roots are a directory or lie below it. -/
def within (g : PackageGraph) (directory : Location) : List Package :=
  (g.packages.filter fun root _ => root.isWithin directory).values

/-- The graph without the packages whose roots are a directory or lie below it. -/
def removeWithin (g : PackageGraph) (directory : Location) : PackageGraph :=
  ⟨g.packages.filter fun root _ => !root.isWithin directory⟩

/-- The first package of a name. -/
def byName? (g : PackageGraph) (name : String) : Option Package :=
  g.toList.find? (·.name == name)

/-- The first package of an identifier. -/
def byId? (g : PackageGraph) (id : String) : Option Package :=
  g.toList.find? (·.id == id)

/-- The package that owns a location. -/
def packageFor? (g : PackageGraph) (l : Location) : Option Package :=
  (g.packages.deepest? l.isBelow).map (·.2)

/-- The packages that dependencies lead to, without those whose identifiers have
been seen; each identifier once. -/
def newTargets (g : PackageGraph) (seen : List String) : List Dependency → List Package
  | [] => []
  | d :: ds =>
    match g.byName? d.name with
    | none => g.newTargets seen ds
    | some target =>
      if seen.contains target.id then g.newTargets seen ds
      else target :: g.newTargets (target.id :: seen) ds

/-- The packages found from those in `queue`, behind those found already.  Each round
takes a package from the queue. -/
def explore (g : PackageGraph) (scope : DependencyScope) (start : Package) :
    (rounds : Nat) → (queue found : List Package) → List Package
  | 0, _, found => found
  | _ + 1, [], found => found
  | rounds + 1, p :: queue, found =>
    let new := g.newTargets (start.id :: found.map (·.id)) p.dependencies
    let queue := if scope = .transitive then queue ++ new else queue
    g.explore scope start rounds queue (found ++ new)

/-- The packages that a package sees, itself not among them: in the order of
declaration, and those seen through others behind, breadth first.  No package
enters the queue twice, so the rounds suffice. -/
def visibleFrom (g : PackageGraph) (p : Package) (scope : DependencyScope) : List Package :=
  g.explore scope p (g.packages.size + 1) [p] []

/-- Whether what is in the package `target` may be named in the package `source`. -/
def isVisible (g : PackageGraph) (source target : String) (scope : DependencyScope) : Bool :=
  source == target ||
    match g.byId? source with
    | some p => (g.visibleFrom p scope).any (·.id == target)
    | none => false

end PackageGraph

end ModelWorkspace
