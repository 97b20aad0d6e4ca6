import ModelWorkspace.Diagnostic.Basic
import ModelWorkspace.Package.Components
import ModelWorkspace.Package.Graph
import ModelWorkspace.Package.Version

/-!
# Problems with packages

What can be wrong with the dependencies that manifests declare: a name that no
package has, a version that the package does not meet, and packages that depend
on each other in a circle.  Each problem is reported on the manifest that causes
it, at the last place where the dependency is written.
-/

namespace ModelWorkspace

/-- A problem with the dependencies of a package. -/
inductive PackageProblem where
  | unknownDependency (name : String)
  | versionMismatch (name required found : String)
  | cycle (members : List String)
deriving DecidableEq, Repr

namespace PackageGraph

/-- The place of the last package of a name in the order of roots. -/
def lastPlace? (packages : List Package) (name : String) : Option (Fin packages.length) :=
  let places := (packages.zip (List.finRange packages.length)).filter fun (p, _) => p.name == name
  places.getLast?.map (·.2)

/-- For each package the places of the packages it depends on. -/
def edges (packages : List Package) : Components.Graph packages.length :=
  ⟨(packages.map fun p => p.dependencies.filterMap fun d => lastPlace? packages d.name).toArray,
    by simp⟩

/-- The circles of packages that depend on each other, as names in the order of
roots. -/
def cycles (g : PackageGraph) : List (List String) :=
  let packages := g.toList
  (Components.cyclic (edges packages)).map fun nodes =>
    (nodes.mergeSort fun v w => v ≤ w).map fun v => (packages.get v).name

/-- The problem with one dependency, if there is one. -/
def dependencyProblem? (g : PackageGraph) (d : Dependency) : Option PackageProblem :=
  match g.byName? d.name with
  | none => some (.unknownDependency d.name)
  | some target =>
    if Version.satisfies d.requirement target.version then none
    else some (.versionMismatch d.name d.requirement target.version)

/-- All problems with the manifests they are reported on: those of single dependencies
first, in the order of roots and of declaration, then the circles. -/
def problems (g : PackageGraph) : List (Location × PackageProblem) :=
  let single := g.toList.flatMap fun p =>
    (p.dependencies.filterMap g.dependencyProblem?).map fun problem => (p.manifest, problem)
  let circular := g.cycles.flatMap fun members =>
    (members.filterMap g.byName?).map fun p => (p.manifest, PackageProblem.cycle members)
  single ++ circular

end PackageGraph

namespace PackageProblem

/-- The offset of the last place where a text holds another one. -/
def lastOffset? (needle : List Char) : (offset : Nat) → List Char → Option Nat
  | offset, [] => if needle = [] then some offset else none
  | offset, c :: cs =>
    match lastOffset? needle (offset + c.utf8Size) cs with
    | some found => some found
    | none => if needle.isPrefixOf (c :: cs) then some offset else none

/-- Where a manifest writes the name of a dependency; the start of the manifest if it
does not. -/
def anchor (manifest name : String) : TextRange :=
  let written := '"' :: name.toList ++ ['"']
  match lastOffset? written 0 manifest.toList with
  | some offset => TextRange.ofWidth offset (byteWidth written)
  | none => TextRange.empty 0

/-- The diagnostic of a problem on the manifest with the given text. -/
def diagnostic (problem : PackageProblem) (manifest : String) : Diagnostic :=
  match problem with
  | .unknownDependency name =>
    { range := anchor manifest name, severity := .warning, kind := .package
      code := some DiagnosticCode.unknownDependency
      message := "dependency `" ++ name ++ "` is not a package in the workspace" }
  | .versionMismatch name required found =>
    { range := anchor manifest name, severity := .warning, kind := .package
      code := some DiagnosticCode.versionMismatch
      message := "dependency `" ++ name ++ "` requires version " ++ required ++
        ", workspace has " ++ found }
  | .cycle members =>
    { range := TextRange.empty 0, severity := .error, kind := .package
      code := some DiagnosticCode.dependencyCycle
      message := "circular package dependency: " ++ " -> ".intercalate members }

end PackageProblem

end ModelWorkspace
