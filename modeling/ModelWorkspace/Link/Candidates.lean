import ModelWorkspace.Link.Resolve

/-!
# Candidates for a reference

What can be written at a reference property: every element of the expected kind
that is visible there, each once, with a label that means it.  Elements of the
same unit come first, then those of the unit's package, then those of the
packages which it sees.
-/

namespace ModelWorkspace

/-- How far away a candidate is. -/
inductive Distance where
  /-- In the same unit, or a member that the property asks for. -/
  | near
  | package
  | dependency
deriving DecidableEq, Repr

/-- The distance as a number. -/
def Distance.rank : Distance → Nat
  | near => 0
  | package => 1
  | dependency => 2

/-- An element that may be written at a reference property. -/
structure Candidate where
  label : String
  entry : IndexEntry
  distance : Distance
deriving DecidableEq, Repr

/-- The candidates without those whose element has occurred before; `seen` are the
global identifiers that have. -/
def Candidate.distinct (seen : List String) : List Candidate → List Candidate
  | [] => []
  | c :: cs =>
    if seen.contains c.entry.globalId then distinct seen cs
    else c :: distinct (c.entry.globalId :: seen) cs

/-- The text behind a name and a dot, if it starts with them. -/
def afterName? (name text : String) : Option String :=
  let start := name.toList ++ ['.']
  if start.isPrefixOf text.toList then
    some (String.ofList (text.toList.drop start.length))
  else
    none

namespace Linker

/-- The members of an entity, labelled by their own names behind `object`. -/
def memberCandidates (linker : Linker) (kind : ElementKind) (label : String → String)
    (entity : IndexEntry) : List Candidate :=
  ((linker.index.membersOf entity.globalId).filter (·.kind == kind)).map fun member =>
    ⟨label member.localId, member, .near⟩

/-- The candidates for a property that names members of the entity which the `anchor`
of the element at `path` refers to. -/
def anchoredCandidates (linker : Linker) (origin : Origin) (root : Element)
    (path : ElementPath) (anchor : String) (kind : ElementKind) : List Candidate :=
  let entity? := do
    let container ← root.walk path
    let site ← (container.referencesOf anchor).head?
    linker.resolveName origin site.text site.target
  (entity?.map (linker.memberCandidates kind id)).getD []

/-- The candidates of the form `object.member`, where the objects are those of a
feature of the root. -/
def qualifiedCandidates (linker : Linker) (origin : Origin) (root : Element)
    (feature : String) (kind : ElementKind) : List Candidate :=
  let objects := ((root.containment? feature).map (·.elements)).getD []
  objects.flatMap fun object =>
    match object.id, linker.objectEntity? origin object with
    | some id, some entity => linker.memberCandidates kind (Name.nested id) entity
    | _, _ => []

/-- The elements of the same unit, labelled by their names below the root. -/
def unitCandidates (linker : Linker) (origin : Origin) (kind : ElementKind) :
    List Candidate :=
  ((linker.index.entriesIn origin.location).filter (·.kind == kind)).map fun entry =>
    let short := origin.rootName.bind fun root => afterName? root entry.localName
    ⟨short.getD entry.localName, entry, .near⟩

/-- The label of an element of a package: its name there if that means it, otherwise
its global identifier. -/
def packageLabel (linker : Linker) (origin : Origin) (entry : IndexEntry) : String :=
  match linker.resolveName origin entry.localName entry.kind with
  | some found => if found.globalId = entry.globalId then entry.localName else entry.globalId
  | none => entry.globalId

/-- The elements of a package. -/
def packageCandidates (linker : Linker) (origin : Origin) (kind : ElementKind)
    (distance : Distance) (package : Package) : List Candidate :=
  ((linker.index.entriesInPackage package.id).filter (·.kind == kind)).map fun entry =>
    ⟨linker.packageLabel origin entry, entry, distance⟩

/-- The elements of the package of a unit and of the packages which it sees. -/
def visibleCandidates (linker : Linker) (origin : Origin) (kind : ElementKind) :
    List Candidate :=
  match origin.package with
  | none => []
  | some package =>
    linker.packageCandidates origin kind .package package ++
      (linker.packages.visibleFrom package linker.scope).flatMap
        (linker.packageCandidates origin kind .dependency)

/-- The candidates for a property of the element at `path` of a unit. -/
def candidates (linker : Linker) (l : Location) (root : Element) (path : ElementPath)
    (property : String) : List Candidate :=
  match (root.walk path).bind (·.kind.reference? property) with
  | none => []
  | some spec =>
    let origin := linker.origin l
    match spec.anchor with
    | some anchor =>
      match path.parent? with
      | some container =>
        Candidate.distinct []
          (linker.anchoredCandidates origin root container anchor spec.target)
      | none => []
    | none =>
      let qualified :=
        match spec.qualifier with
        | some feature => linker.qualifiedCandidates origin root feature spec.target
        | none => []
      Candidate.distinct []
        (qualified ++ linker.unitCandidates origin spec.target ++
          linker.visibleCandidates origin spec.target)

end Linker

end ModelWorkspace
