/-!
# The schema of the modelling language

The closed set of element kinds, and for each kind what its elements may hold:
containment features, under which other elements are nested, and reference
properties, which name elements elsewhere.  Every other property is a plain
value.
-/

namespace ModelWorkspace

/-- The kind of an element. -/
inductive ElementKind where
  | entity
  | entityAttribute
  | relationship
  | relationshipAttribute
  | systemDiagram
  | entityNode
  | relationshipEdge
  | mapping
  | sourceObject
  | targetObject
  | attributeMapping
deriving DecidableEq, Repr, Inhabited

/-- A containment feature: elements of one kind nested under a property. -/
structure ContainmentSpec where
  feature : String
  kind : ElementKind
  /-- Whether the property holds a list of elements rather than one block. -/
  many : Bool := true
deriving DecidableEq, Repr

/-- A reference property: names of elements of one kind. -/
structure ReferenceSpec where
  property : String
  target : ElementKind
  /-- Whether the property may hold several names. -/
  many : Bool := false
  /-- A property of the containing element: the reference then names a member of
  the entity which that property leads to. -/
  anchor : Option String := none
  /-- A containment feature of the root: the reference may then be written
  `object.member` and names a member of the entity of that object. -/
  qualifier : Option String := none
deriving DecidableEq, Repr

namespace ElementKind

/-- All kinds. -/
def all : List ElementKind :=
  [entity, entityAttribute, relationship, relationshipAttribute, systemDiagram, entityNode,
    relationshipEdge, mapping, sourceObject, targetObject, attributeMapping]

/-- The kind of the root element that a file writes under `key`. -/
def ofRootKey? (key : String) : Option ElementKind :=
  if key = "entity" then some entity
  else if key = "relationship" then some relationship
  else if key = "systemDiagram" ∨ key = "diagram" then some systemDiagram
  else if key = "mapping" then some mapping
  else none

/-- Whether elements of this kind stand at the root of a file. -/
def isRoot : ElementKind → Bool
  | entity | relationship | systemDiagram | mapping => true
  | _ => false

/-- Whether elements of this kind declare an `id`. -/
def declaresId : ElementKind → Bool
  | relationshipAttribute | targetObject | attributeMapping => false
  | _ => true

/-- Whether the links of a root of this kind include parts that are derived from
other elements. -/
def hasImplicitSubstructure : ElementKind → Bool
  | systemDiagram | mapping => true
  | _ => false

/-- Whether elements of this kind show the members of the entity they refer to. -/
def derivesMembers : ElementKind → Bool
  | entityNode | sourceObject | targetObject => true
  | _ => false

/-- The containment features of a kind. -/
def containments : ElementKind → List ContainmentSpec
  | entity => [{ feature := "attributes", kind := entityAttribute }]
  | relationship => [{ feature := "attributes", kind := relationshipAttribute }]
  | systemDiagram =>
    [{ feature := "nodes", kind := entityNode }, { feature := "edges", kind := relationshipEdge }]
  | mapping =>
    [{ feature := "sources", kind := sourceObject },
      { feature := "target", kind := targetObject, many := false }]
  | targetObject => [{ feature := "mappings", kind := attributeMapping }]
  | _ => []

/-- The reference properties of a kind. -/
def references : ElementKind → List ReferenceSpec
  | entity => [{ property := "superEntities", target := entity, many := true }]
  | relationship =>
    [{ property := "parent", target := entity }, { property := "child", target := entity }]
  | relationshipAttribute =>
    [{ property := "parent", target := entityAttribute, anchor := some "parent" },
      { property := "child", target := entityAttribute, anchor := some "child" }]
  | entityNode | sourceObject | targetObject => [{ property := "entity", target := entity }]
  | relationshipEdge =>
    [{ property := "relationship", target := relationship },
      { property := "sourceNode", target := entityNode },
      { property := "targetNode", target := entityNode }]
  | attributeMapping =>
    [{ property := "attribute", target := entityAttribute, anchor := some "entity" },
      { property := "source", target := entityAttribute, qualifier := some "sources" }]
  | _ => []

/-- The containment feature of a given name. -/
def containment? (kind : ElementKind) (feature : String) : Option ContainmentSpec :=
  kind.containments.find? (·.feature == feature)

/-- The reference property of a given name. -/
def reference? (kind : ElementKind) (property : String) : Option ReferenceSpec :=
  kind.references.find? (·.property == property)

/-- The kind in messages to users. -/
def description : ElementKind → String
  | entity => "entity"
  | entityAttribute => "attribute"
  | relationship => "relationship"
  | relationshipAttribute => "relationship attribute"
  | systemDiagram => "system diagram"
  | entityNode => "entity node"
  | relationshipEdge => "relationship edge"
  | mapping => "mapping"
  | sourceObject => "source object"
  | targetObject => "target object"
  | attributeMapping => "attribute mapping"

/-- The name of the kind in transferred documents. -/
def name : ElementKind → String
  | entity => "Entity"
  | entityAttribute => "Attribute"
  | relationship => "Relationship"
  | relationshipAttribute => "RelationshipAttribute"
  | systemDiagram => "SystemDiagram"
  | entityNode => "EntityNode"
  | relationshipEdge => "RelationshipEdge"
  | mapping => "Mapping"
  | sourceObject => "SourceObject"
  | targetObject => "TargetObject"
  | attributeMapping => "AttributeMapping"

/-- The kind that has a given name. -/
def ofName? (name : String) : Option ElementKind :=
  all.find? (·.name == name)

theorem ofName?_name (kind : ElementKind) : ofName? kind.name = some kind := by
  cases kind <;> rfl

theorem isRoot_of_ofRootKey? {key : String} {kind : ElementKind}
    (h : ofRootKey? key = some kind) : kind.isRoot = true := by
  unfold ofRootKey? at h
  split at h
  · cases h; rfl
  split at h
  · cases h; rfl
  split at h
  · cases h; rfl
  split at h
  · cases h; rfl
  · cases h

end ElementKind

end ModelWorkspace
