import ModelWorkspace.Link.Basic

/-!
# Resolving references

A name means the first of these that is an element of the expected kind:

* an element of the same unit of that name, or of that name below the root;
* an element of that name in the package of the unit;
* an element of that name in a package which that package sees, in the order in
  which it sees them;
* the element of which the name is the global identifier, if its package is the
  unit's own or one that it sees.

Two kinds of property read names otherwise.  An anchored one names a member of the
entity which the containing element refers to, unless the name has a dot in it.  A
qualified one may be written `object.member`, where the object is one of the
root's, and then names a member of the entity which that object refers to.
-/

namespace ModelWorkspace

/-- The parts of a text before and behind its first dot, if it has one. -/
def splitAtDot? (text : String) : Option (String × String) :=
  let chars := text.toList
  match chars.dropWhile (· ≠ '.') with
  | [] => none
  | _ :: rest => some (String.ofList (chars.takeWhile (· ≠ '.')), String.ofList rest)

namespace Linker

/-- An element of the same unit by its name, or by its name below the root. -/
def sameUnit? (linker : Linker) (origin : Origin) (name : String) (kind : ElementKind) :
    Option IndexEntry :=
  let found? := fun name =>
    (linker.index.findLocal origin.location name).filter (·.kind == kind)
  (found? name).orElse fun _ => origin.rootName.bind fun root => found? (Name.nested root name)

/-- An element by its name in a package. -/
def inPackage? (linker : Linker) (package name : String) (kind : ElementKind) :
    Option IndexEntry :=
  (linker.index.get? (Name.globalId package name)).filter (·.kind == kind)

/-- An element by its global identifier, if its package is among those given. -/
def byGlobalId? (linker : Linker) (packages : List String) (id : String)
    (kind : ElementKind) : Option IndexEntry :=
  (linker.index.get? id).filter fun entry =>
    entry.kind == kind && packages.contains entry.package

/-- The identifiers of the packages whose elements may be named in a package: itself
first, then those it sees. -/
def namespacesFrom (linker : Linker) (package : Package) : List String :=
  package.id :: (linker.packages.visibleFrom package linker.scope).map (·.id)

/-- The element that a name means. -/
def resolveName (linker : Linker) (origin : Origin) (name : String) (kind : ElementKind) :
    Option IndexEntry :=
  (linker.sameUnit? origin name kind).orElse fun _ =>
    match origin.package with
    | none => none
    | some package =>
      let namespaces := linker.namespacesFrom package
      (namespaces.findSome? fun id => linker.inPackage? id name kind).orElse fun _ =>
        linker.byGlobalId? namespaces name kind

/-- The member of an entity that a name means. -/
def resolveMember (linker : Linker) (entity : IndexEntry) (name : String)
    (kind : ElementKind) : Option IndexEntry :=
  (linker.index.findLocal entity.location (Name.nested entity.localName name)).filter
    (·.kind == kind)

/-- The entity that an object refers to. -/
def objectEntity? (linker : Linker) (origin : Origin) (object : Element) :
    Option IndexEntry :=
  (object.references.find? (·.target == .entity)).bind fun site =>
    linker.resolveName origin site.text site.target

/-- What `object.member` means, where the object is one of a feature of the root.  The
outer `none` says that the text is not of this form. -/
def resolveQualified? (linker : Linker) (origin : Origin) (root : Element)
    (feature text : String) (kind : ElementKind) : Option (Option IndexEntry) := do
  let (head, member) ← splitAtDot? text
  let objects ← root.containment? feature
  let object ← objects.elements.find? (·.id == some head)
  return (linker.objectEntity? origin object).bind fun entity =>
    linker.resolveMember entity member kind

/-- What a reference means that the element at `path` makes; `links` are those of what
is written before it. -/
def resolveSite (linker : Linker) (origin : Origin) (root : Element) (links : Links)
    (path : ElementPath) (kind : ElementKind) (site : ReferenceSite) : Option IndexEntry :=
  let spec := kind.reference? site.property
  match (spec.bind (·.qualifier)).bind fun feature =>
      linker.resolveQualified? origin root feature site.text site.target with
  | some found => found
  | none =>
    match (spec.bind (·.anchor)).filter fun _ => (splitAtDot? site.text).isNone with
    | some anchor =>
      (path.parent?.bind (links.targetOf? · anchor)).bind fun entity =>
        linker.resolveMember entity site.text site.target
    | none => linker.resolveName origin site.text site.target

/-- The links with one more reference. -/
def linkSite (linker : Linker) (origin : Origin) (root : Element) (path : ElementPath)
    (kind : ElementKind) (links : Links) (site : ReferenceSite) : Links :=
  let target := linker.resolveSite origin root links path kind site
  { links with references := links.references ++ [⟨path, site, target⟩] }

/-- The members that the element at `path` shows. -/
def implicitMembers (linker : Linker) (links : Links) (path : ElementPath)
    (kind : ElementKind) : List ImplicitMember :=
  if kind.derivesMembers then
    match links.targetOf? path "entity" with
    | some entity =>
      ((linker.index.membersOf entity.globalId).filter (·.kind == .entityAttribute)).map
        fun member => ⟨path, entity.globalId, member⟩
    | none => []
  else
    []

/-- The links with those of one more element. -/
def linkElement (linker : Linker) (origin : Origin) (root : Element) (links : Links)
    (described : ElementPath × Element) : Links :=
  let (path, e) := described
  let links := e.references.foldl (linker.linkSite origin root path e.kind) links
  { links with implicit := links.implicit ++ linker.implicitMembers links path e.kind }

/-- The links of the unit at a location, which has the given root. -/
def link (linker : Linker) (l : Location) (root : Element) : Links :=
  root.descendants.foldl (linker.linkElement (linker.origin l) root) {}

/-- The links of a unit, which has none without a root. -/
def linkDocument (linker : Linker) (l : Location) (root : Option Element) : Links :=
  match root with
  | some root => linker.link l root
  | none => {}

end Linker

end ModelWorkspace
