import ModelWorkspace.Diagnostic.Basic
import ModelWorkspace.Link.Basic
import ModelWorkspace.Package.Manifest
import ModelWorkspace.Text.Lines
import ModelWorkspace.Workspace.Lifecycle

/-!
# Source units

A source unit is a tracked file in memory: its text, what was parsed from it, its
links and its diagnostics, with the state of the lifecycle it is in.  A unit is
replaced as a whole when its file is read again.
-/

namespace ModelWorkspace

/-- What a tracked file is. -/
inductive UnitKind where
  | model
  | manifest
deriving DecidableEq, Repr, Inhabited

/-- A tracked file in memory. -/
structure SourceUnit where
  location : Location
  kind : UnitKind
  text : String
  document : Document := {}
  /-- What the file declares, if it is a well-formed manifest. -/
  manifest : Option Manifest := none
  links : Links := {}
  diagnostics : List Diagnostic := []
  state : LifecycleState := .unbuilt
deriving Repr, Inhabited

namespace SourceUnit

/-- A unit of which nothing is known but its text. -/
def ofText (location : Location) (kind : UnitKind) (text : String) : SourceUnit :=
  { location := location, kind := kind, text := text }

/-- A model unit whose text has been parsed. -/
def ofDocument (location : Location) (text : String) (document : Document) : SourceUnit :=
  { ofText location .model text with document := document, state := .parsed }

/-- Whether the unit is a manifest. -/
def isManifest (u : SourceUnit) : Bool :=
  u.kind == .manifest

/-- Whether the unit is a model file. -/
def isModel (u : SourceUnit) : Bool :=
  u.kind == .model

/-- The lines of the text. -/
def lines (u : SourceUnit) : LineIndex :=
  LineIndex.ofText u.text

/-- Whether a diagnostic of the unit is an error. -/
def hasErrors (u : SourceUnit) : Bool :=
  u.diagnostics.any (·.isError)

/-- The unit one step further, which must be the next one. -/
def advance (u : SourceUnit) (state : LifecycleState) : Except LifecycleError SourceUnit :=
  if u.state.next? = some state then
    .ok { u with state := state }
  else
    .error (.skip u.location u.state state)

/-- The unit in a state that it has reached before. -/
def resetTo (u : SourceUnit) (state : LifecycleState) : Except LifecycleError SourceUnit :=
  if u.state < state then
    .error (.upward u.location u.state state)
  else
    .ok { u with state := state }

/-- Whether the links of the unit include parts that are derived from other elements. -/
def hasImplicitSubstructure (u : SourceUnit) : Bool :=
  u.document.root.any (·.kind.hasImplicitSubstructure)

/-- The unit without its links.  Derived parts have to be found again then, so a unit
that has such parts goes back to where it was indexed; the flag tells whether it did. -/
def unlink (u : SourceUnit) : Bool × SourceUnit :=
  if u.hasImplicitSubstructure ∧ LifecycleState.indexed < u.state then
    (true, { u with links := {}, state := .indexed })
  else
    (false, { u with links := {} })

end SourceUnit

end ModelWorkspace
