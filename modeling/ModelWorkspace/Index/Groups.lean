/-!
# Identifiers in groups

A table from keys to lists of identifiers.  New identifiers go to the end of their
group; a key that was never used stands for an empty group.
-/

namespace ModelWorkspace

/-- Identifiers by key. -/
structure Groups where
  groups : List (String × List String)
deriving DecidableEq, Repr

namespace Groups

/-- The table without identifiers. -/
def empty : Groups :=
  ⟨[]⟩

/-- The identifiers of a group, in the order they were added. -/
def get (g : Groups) (key : String) : List String :=
  (g.groups.lookup key).getD []

/-- Puts an identifier at the end of a group. -/
def addTo (key id : String) : List (String × List String) → List (String × List String)
  | [] => [(key, [id])]
  | (other, ids) :: groups =>
    if key = other then (other, ids ++ [id]) :: groups
    else (other, ids) :: addTo key id groups

/-- The table with an identifier at the end of a group. -/
def add (g : Groups) (key id : String) : Groups :=
  ⟨addTo key id g.groups⟩

/-- The table without some identifiers. -/
def remove (g : Groups) (ids : List String) : Groups :=
  ⟨g.groups.map fun (key, group) => (key, group.filter fun id => !ids.contains id)⟩

/-- The table without the groups of some keys. -/
def removeKeys (g : Groups) (keys : List String) : Groups :=
  ⟨g.groups.filter fun (key, _) => !keys.contains key⟩

end Groups

end ModelWorkspace
