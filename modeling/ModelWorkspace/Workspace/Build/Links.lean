import ModelWorkspace.Diagnostic.Validation
import ModelWorkspace.Link.Resolve
import ModelWorkspace.Package.Malformed
import ModelWorkspace.Package.Problem
import ModelWorkspace.Workspace.Build.Basic

/-!
# Linking and validating files

Files that were indexed in this build are linked.  Of the others, those are linked
again whose package is one of a file that was touched, or sees one: only there a
reference may have got another meaning.  Behind linking comes validation.

The diagnostics of manifests depend on all packages and are found again as a whole.
-/

namespace ModelWorkspace
namespace Build

/-- The identifiers of the packages that own files of a set. -/
def owners (packages : PackageGraph) (touched : LocationSet) : List String :=
  touched.toList.filterMap fun l => (packages.packageFor? l).map (·.id)

/-- The identifiers of the packages in which elements of the given packages may be
named. -/
def seeing (packages : PackageGraph) (scope : DependencyScope) (changed : List String) :
    List String :=
  let sees := fun (p : Package) =>
    changed.contains p.id || (packages.visibleFrom p scope).any fun q => changed.contains q.id
  (packages.toList.filter sees).map (·.id)

/-- The identifiers of the packages in which references may have got another meaning.
None are listed when packages have changed: then all files are linked again, whatever
packages they are in. -/
def affected (b : Build) : List String :=
  let ws := b.workspace
  if b.packagesChanged then []
  else seeing ws.packages ws.config.dependencyScope (owners ws.packages b.touched)

/-- Whether a file has to be linked, given the packages that are affected. -/
def needsLink (b : Build) (affected : List String) (u : SourceUnit) : Bool :=
  u.isModel &&
    match u.state with
    | .indexed => true
    | .linked | .validated =>
      b.packagesChanged ||
        (b.workspace.packages.packageFor? u.location).any fun p => affected.contains p.id
    | .unbuilt | .parsed => false

/-- A file with new links and diagnostics. -/
def relinkUnit (linker : Linker) (u : SourceUnit) : Except LifecycleError SourceUnit := do
  let u ← u.unlink.2.resetTo .indexed
  let links := linker.linkDocument u.location u.document.root
  let u ← { u with links := links }.advance .linked
  let diagnostics := validate u.document u.links.references
  { u with diagnostics := diagnostics }.advance .validated

/-- Links and validates the files that need it. -/
def relink (b : Build) : Except LifecycleError Build := do
  let ws := b.workspace
  let affected := b.affected
  let targets := (ws.units.values.filter (b.needsLink affected)).map (·.location)
  let units ← ws.units.updateAll fun u =>
    if b.needsLink affected u then relinkUnit ws.linker u else .ok u
  return { b with
    workspace := { ws with units := units }
    report :=
      { b.report with
        linked := b.report.linked ++ targets
        validated := b.report.validated ++ targets } }

/-- The diagnostics of a manifest, given the problems with all packages. -/
def manifestDiagnostics (problems : List (Location × PackageProblem)) (u : SourceUnit) :
    List Diagnostic :=
  let malformed :=
    match u.manifest, Manifest.ofText u.text with
    | none, .error fault => [Manifest.faultDiagnostic u.text fault]
    | _, _ => []
  malformed ++ problems.filterMap fun (l, problem) =>
    if l = u.location then some (problem.diagnostic u.text) else none

/-- Finds the diagnostics of all manifests again. -/
def refreshManifests (b : Build) : Build :=
  let ws := b.workspace
  let problems := ws.packages.problems
  let units := ws.units.map fun _ u =>
    if u.isManifest then { u with diagnostics := manifestDiagnostics problems u } else u
  { b with workspace := { ws with units := units } }

end Build
end ModelWorkspace
