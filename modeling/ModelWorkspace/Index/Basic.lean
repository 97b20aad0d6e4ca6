import ModelWorkspace.Element.Basic
import ModelWorkspace.Index.Groups
import ModelWorkspace.Text.LocationMap

/-!
# The index

The index knows every element of the workspace that can be named, by its global
identifier: where it is declared, what it is called there, and what contains it.
An entry holds the path to its element and not the element, so it stays valid
data when the unit is parsed again.

Entries are listed in the order they were added.  Beside them the index keeps
tables by unit, by package and by container; `add` and `removeLocation` are the
only operations that change it, and each of them changes all tables at once.
-/

namespace ModelWorkspace

/-- What is known of an element that can be named. -/
structure IndexEntry where
  globalId : String
  /-- The name among its siblings. -/
  localId : String
  /-- The name in its unit. -/
  localName : String
  /-- The global identifier of the containing element; roots have none. -/
  container : Option String
  location : Location
  path : ElementPath
  kind : ElementKind
  /-- The identifier of the package that owns the unit. -/
  package : String
deriving DecidableEq, Repr

/-- The elements of a workspace by their global identifiers. -/
structure Index where
  entries : List IndexEntry
  byLocation : LocationMap (List String)
  byPackage : Groups
  byContainer : Groups
deriving Repr

namespace Index

/-- The index without entries. -/
def empty : Index :=
  ⟨[], LocationMap.empty, Groups.empty, Groups.empty⟩

instance : Inhabited Index := ⟨empty⟩

/-- The number of entries. -/
def size (index : Index) : Nat :=
  index.entries.length

/-- Whether there are no entries. -/
def isEmpty (index : Index) : Bool :=
  index.entries.isEmpty

/-- The global identifiers in use. -/
def ids (index : Index) : List String :=
  index.entries.map (·.globalId)

/-- Whether a global identifier is in use. -/
def contains (index : Index) (id : String) : Bool :=
  index.entries.any (·.globalId == id)

/-- The entry of a global identifier. -/
def get? (index : Index) (id : String) : Option IndexEntry :=
  index.entries.find? (·.globalId == id)

/-- The entry of a global identifier, if it has the kind that is asked for. -/
def ofKind? (index : Index) (id : String) (kind : Option ElementKind) : Option IndexEntry :=
  (index.get? id).filter fun entry => kind.all (entry.kind == ·)

/-- The identifiers of a unit. -/
def idsIn (index : Index) (l : Location) : List String :=
  (index.byLocation.get? l).getD []

/-- The entries of a unit, in the order its elements are written. -/
def entriesIn (index : Index) (l : Location) : List IndexEntry :=
  (index.idsIn l).filterMap index.get?

/-- The entries of a package. -/
def entriesInPackage (index : Index) (package : String) : List IndexEntry :=
  (index.byPackage.get package).filterMap index.get?

/-- The entries directly below an entry. -/
def membersOf (index : Index) (container : String) : List IndexEntry :=
  (index.byContainer.get container).filterMap index.get?

/-- The entry of a unit with a given name in it. -/
def findLocal (index : Index) (l : Location) (name : String) : Option IndexEntry :=
  (index.entriesIn l).find? (·.localName == name)

/-- The units that have entries. -/
def locations (index : Index) : List Location :=
  index.byLocation.keys

/-- The index with one more entry, whose global identifier is not in use. -/
def add (index : Index) (entry : IndexEntry) : Index :=
  { entries := index.entries ++ [entry]
    byLocation := index.byLocation.insert entry.location
      (index.idsIn entry.location ++ [entry.globalId])
    byPackage := index.byPackage.add entry.package entry.globalId
    byContainer :=
      match entry.container with
      | some container => index.byContainer.add container entry.globalId
      | none => index.byContainer }

/-- The index without the entries of a unit. -/
def withoutLocation (index : Index) (l : Location) : Index :=
  let removed := index.idsIn l
  { entries := index.entries.filter fun entry => !removed.contains entry.globalId
    byLocation := index.byLocation.erase l
    byPackage := index.byPackage.remove removed
    byContainer := (index.byContainer.removeKeys removed).remove removed }

/-- Removes the entries of a unit; the number tells how many they were. -/
def removeLocation (index : Index) (l : Location) : Nat × Index :=
  ((index.idsIn l).length, index.withoutLocation l)

end Index

end ModelWorkspace
