import ModelWorkspace.Json.Reader
import ModelWorkspace.Package.Graph

/-!
# Settings of a workspace

Which files are model files and which are manifests, and what packages see.  The
number of parse workers and whether work may run in parallel are settings too.  They say
where and at the same time as what a file is parsed, not what comes of it, so no update
looks at them: a batch that is handed to workers comes back as if it had been parsed in
place (`ModelWorkspace.Workspace.Worker`).
-/

namespace ModelWorkspace

/-- The settings of a workspace. -/
structure WorkspaceConfig where
  /-- The extensions of model files, without the dot. -/
  extensions : List String := ["cm"]
  /-- The file name of manifests. -/
  manifestName : String := "package.json"
  dependencyScope : DependencyScope := .direct
  parseWorkers : Nat := 0
  parallel : Bool := true
deriving DecidableEq, Repr, Inhabited

/-- A text that holds no settings. -/
inductive ConfigError where
  | malformed (fault : Json.Fault)
deriving DecidableEq, Repr

/-- The error in words. -/
def ConfigError.message : ConfigError → String
  | .malformed fault => "invalid workspace configuration: " ++ fault.message

/-- The scope that settings call by a name. -/
def DependencyScope.ofName? (name : String) : Option DependencyScope :=
  if name = "direct" then some .direct
  else if name = "transitive" then some .transitive
  else none

/-- The name of a scope in settings. -/
def DependencyScope.name : DependencyScope → String
  | .direct => "direct"
  | .transitive => "transitive"

namespace WorkspaceConfig

/-- The settings that a text has set so far. -/
structure Fields where
  extensions : Option (List String) := none
  manifestName : Option String := none
  dependencyScope : Option DependencyScope := none
  parseWorkers : Option Nat := none
  parallel : Option Bool := none

/-- The shape of settings.  Every field may be missing. -/
def record : Json.Record Fields WorkspaceConfig where
  name := "WorkspaceConfig"
  fields :=
    [{ name := "extensions", isSet := fun s => s.extensions.isSome, hasDefault := true
       read := fun s =>
         return { s with
           extensions := some (← Json.Reader.array (Json.maxDepth - 1)
             (Json.Reader.text "a string")) } },
     { name := "manifestName", isSet := fun s => s.manifestName.isSome, hasDefault := true
       read := fun s =>
         return { s with manifestName := some (← Json.Reader.text "a string") } },
     { name := "dependencyScope", isSet := fun s => s.dependencyScope.isSome
       hasDefault := true
       read := fun s =>
         return { s with
           dependencyScope := some (← Json.Reader.variant (Json.maxDepth - 1)
             DependencyScope.ofName? "`direct` or `transitive`") } },
     { name := "parseWorkers", isSet := fun s => s.parseWorkers.isSome, hasDefault := true
       read := fun s =>
         return { s with
           parseWorkers := some (← Json.Reader.natural Json.maxNatural "usize") } },
     { name := "parallel", isSet := fun s => s.parallel.isSome, hasDefault := true
       read := fun s => return { s with parallel := some (← Json.Reader.boolean) } }]
  start := {}
  finish := fun s =>
    let standard : WorkspaceConfig := {}
    .ok
      { extensions := s.extensions.getD standard.extensions
        manifestName := s.manifestName.getD standard.manifestName
        dependencyScope := s.dependencyScope.getD standard.dependencyScope
        parseWorkers := s.parseWorkers.getD standard.parseWorkers
        parallel := s.parallel.getD standard.parallel }

/-- The settings that a JSON text holds. -/
def ofText (source : String) : Except ConfigError WorkspaceConfig :=
  match Json.read (record.reader Json.maxDepth) source with
  | .ok config => .ok config
  | .error fault => .error (.malformed fault)

/-- Whether a location is that of a model file. -/
def isModelFile (config : WorkspaceConfig) (l : Location) : Bool :=
  match l.extension with
  | some extension => config.extensions.contains extension
  | none => false

/-- Whether a location is that of a manifest. -/
def isManifest (config : WorkspaceConfig) (l : Location) : Bool :=
  l.fileName == config.manifestName

/-- Whether a location is that of a file which the workspace tracks. -/
def isTracked (config : WorkspaceConfig) (l : Location) : Bool :=
  config.isModelFile l || config.isManifest l

end WorkspaceConfig

end ModelWorkspace
