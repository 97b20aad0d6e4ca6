import ModelWorkspace.Index.Basic
import ModelWorkspace.Package.Graph

/-!
# Links

Linking tells for every reference of a unit which indexed element it means, and
lists the members that elements show on behalf of the entity they refer to.  The
result lies beside the element tree; nothing is written into the tree.
-/

namespace ModelWorkspace

/-- A reference with the element it means, if there is one. -/
structure LinkedReference where
  /-- The path of the element that makes the reference. -/
  path : ElementPath
  site : ReferenceSite
  target : Option IndexEntry
deriving DecidableEq, Repr

/-- A member that an element shows because the entity it refers to has it. -/
structure ImplicitMember where
  owner : ElementPath
  /-- The global identifier of the entity. -/
  entity : String
  member : IndexEntry
deriving DecidableEq, Repr

/-- The links of a unit. -/
structure Links where
  references : List LinkedReference := []
  implicit : List ImplicitMember := []
deriving DecidableEq, Repr, Inhabited

namespace Links

/-- The references that mean no element. -/
def unresolved (links : Links) : List LinkedReference :=
  links.references.filter (·.target.isNone)

/-- The element that a property of the element at a path means; of a property with
several names, the first one counts. -/
def targetOf? (links : Links) (path : ElementPath) (property : String) : Option IndexEntry :=
  (links.references.reverse.find? fun r =>
    r.path == path && r.site.property == property && r.site.index == 0).bind (·.target)

end Links

/-- What references are resolved in: the index, and the packages with what they see. -/
structure Linker where
  index : Index
  packages : PackageGraph
  scope : DependencyScope
deriving Repr, Inhabited

/-- Where references are made: the unit, the package that owns it, and the name under
which the root of the unit is indexed. -/
structure Origin where
  location : Location
  package : Option Package
  rootName : Option String
deriving DecidableEq, Repr

namespace Linker

/-- The name under which the root of a unit is indexed. -/
def rootName? (linker : Linker) (l : Location) : Option String :=
  ((linker.index.entriesIn l).find? (·.path.isRoot)).map (·.localName)

/-- References made in a unit. -/
def origin (linker : Linker) (l : Location) : Origin :=
  ⟨l, linker.packages.packageFor? l, linker.rootName? l⟩

end Linker

end ModelWorkspace
