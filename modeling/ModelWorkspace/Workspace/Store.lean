import ModelWorkspace.Text.LocationMap
import ModelWorkspace.Workspace.Unit

/-!
# The units and buffers of a workspace

The unit store holds the tracked files in memory by their locations.  Buffers hold
the texts of files that are open in an editor; such a text counts in place of the
one on the disk.
-/

namespace ModelWorkspace

/-- The tracked files of a workspace. -/
abbrev UnitStore := LocationMap SourceUnit

namespace UnitStore

/-- The store with a unit in place of any other at its location. -/
def put (store : UnitStore) (u : SourceUnit) : UnitStore :=
  store.insert u.location u

/-- The model files. -/
def models (store : UnitStore) : List SourceUnit :=
  store.values.filter (·.isModel)

/-- The locations of units that are a directory or lie below it. -/
def locationsWithin (store : UnitStore) (directory : Location) : List Location :=
  store.keys.filter (·.isWithin directory)

/-- The store with one unit changed, if it is there. -/
def modify (store : UnitStore) (l : Location) (f : SourceUnit → SourceUnit) : UnitStore :=
  store.map fun other u => if other = l then f u else u

end UnitStore

/-- The texts of the files that are open in an editor. -/
abbrev Buffers := LocationMap String

namespace Buffers

/-- Opens a file, or replaces its text if it is open. -/
def openFile (buffers : Buffers) (l : Location) (text : String) : Buffers :=
  buffers.insert l text

/-- Replaces the text of a file that is open; the flag tells whether it is. -/
def change (buffers : Buffers) (l : Location) (text : String) : Bool × Buffers :=
  if buffers.contains l then (true, buffers.insert l text) else (false, buffers)

/-- Closes a file; the flag tells whether it was open. -/
def close (buffers : Buffers) (l : Location) : Bool × Buffers :=
  (buffers.contains l, buffers.erase l)

end Buffers

end ModelWorkspace
