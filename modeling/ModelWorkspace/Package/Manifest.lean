import ModelWorkspace.Json.Reader
import ModelWorkspace.Text.Blank

/-!
# Package manifests

A manifest is a JSON file that names a package, its version and the packages it
depends on, each with a version requirement.  Other fields are not looked at.  A
dependency that is written twice keeps its first place and its last requirement.
-/

namespace ModelWorkspace

/-- A package that another one needs, with the versions it accepts. -/
structure Dependency where
  name : String
  requirement : String
deriving DecidableEq, Repr

/-- What a manifest declares. -/
structure Manifest where
  name : String
  version : String := ""
  dependencies : List Dependency := []
deriving DecidableEq, Repr

namespace Manifest

/-- The fields of a manifest as far as they are read. -/
structure Fields where
  name : Option String := none
  version : Option String := none
  dependencies : Option (List (String × String)) := none

/-- The shape of a manifest. -/
def record : Json.Record Fields Manifest where
  name := "PackageManifest"
  fields :=
    [{ name := "name", isSet := fun s => s.name.isSome
       read := fun s => return { s with name := some (← Json.Reader.text "a string") } },
     { name := "version", isSet := fun s => s.version.isSome, hasDefault := true
       read := fun s => return { s with version := some (← Json.Reader.text "a string") } },
     { name := "dependencies", isSet := fun s => s.dependencies.isSome, hasDefault := true
       read := fun s =>
         return { s with
           dependencies := some (← Json.Reader.table (Json.maxDepth - 1)
             (Json.Reader.text "a string")) } }]
  start := {}
  finish := fun s =>
    match s.name with
    | none => .error (.missingField "name")
    | some name =>
      .ok { name := name, version := s.version.getD ""
            dependencies := (s.dependencies.getD []).map fun (name, requirement) =>
              ⟨name, requirement⟩ }

/-- The manifest that a JSON text holds. -/
def ofJson (source : String) : Except Json.Fault Manifest :=
  Json.read (record.reader Json.maxDepth) source

/-- The manifest that a JSON text holds, which must name its package. -/
def ofText (source : String) : Except Json.Fault Manifest :=
  match ofJson source with
  | .error fault => .error fault
  | .ok manifest =>
    if isBlankText manifest.name then .error ⟨.emptyName, none⟩ else .ok manifest

/-- The same dependencies, each name once: at its first place, with its last
requirement. -/
def mergeDependencies (dependencies : List (String × String)) : List Dependency :=
  (dependencies.foldl (fun found (name, requirement) =>
    Json.Reader.putEntry found name requirement) []).map fun (name, requirement) =>
      ⟨name, requirement⟩

end Manifest

end ModelWorkspace
