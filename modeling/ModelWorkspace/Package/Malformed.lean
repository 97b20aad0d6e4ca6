import ModelWorkspace.Diagnostic.Basic
import ModelWorkspace.Package.Manifest
import ModelWorkspace.Text.Lines

/-!
# Malformed manifests

A manifest that cannot be read is reported where reading it stopped.
-/

namespace ModelWorkspace
namespace Manifest

/-- The offset at which reading a text stopped; the start of the text if that is not
known, and never behind its end. -/
def faultOffset (source : String) (fault : Json.Fault) : Nat :=
  let index := LineIndex.ofText source
  let offset? := fault.place.bind fun place =>
    index.offset? (Position.ofOneBased place.line place.column)
  (offset?.map (min · index.width)).getD 0

/-- The diagnostic of a manifest that cannot be read. -/
def faultDiagnostic (source : String) (fault : Json.Fault) : Diagnostic :=
  { range := TextRange.empty (faultOffset source fault), severity := .error, kind := .package
    code := some DiagnosticCode.malformedManifest
    message := "malformed package manifest: " ++ fault.message }

end Manifest
end ModelWorkspace
