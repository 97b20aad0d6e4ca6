import ModelWorkspace.Element.Kind
import ModelWorkspace.Text.Range

/-!
# Elements

A model file holds one root element with everything nested in it.  An element
keeps its plain properties, the references it makes as they are written, and the
elements it contains, by feature.  What a reference resolves to is not part of
the element.

A path leads from the root to a nested element: `walk` follows it, and
`descendants` lists every element with its path.
-/

namespace ModelWorkspace

/-- One step of a path: the `index`-th element of a containment feature. -/
structure PathStep where
  feature : String
  index : Nat
deriving DecidableEq, Repr, Inhabited

/-- The steps from the root of a unit to an element; none for the root. -/
abbrev ElementPath := List PathStep

namespace ElementPath

/-- The path to the root. -/
def root : ElementPath := []

/-- Whether the path leads to the root. -/
def isRoot (path : ElementPath) : Bool :=
  path.isEmpty

/-- The path to an element one step further. -/
def child (path : ElementPath) (feature : String) (index : Nat) : ElementPath :=
  path ++ [⟨feature, index⟩]

/-- The path to the containing element; the root has none. -/
def parent? (path : ElementPath) : Option ElementPath :=
  if path = [] then none else some path.dropLast

/-- The path in messages: its steps as `feature@index`. -/
def render (path : ElementPath) : String :=
  "/" ++ "/".intercalate (path.map fun step => step.feature ++ "@" ++ toString step.index)

end ElementPath

/-- A reference as it is written. -/
structure ReferenceSite where
  property : String
  /-- The place among the names of a property that holds several, else `0`. -/
  index : Nat
  text : String
  range : TextRange
  target : ElementKind
deriving DecidableEq, Repr, Inhabited

/-- The elements nested under one feature. -/
structure Containment (α : Type) where
  feature : String
  elements : List α
deriving Repr, BEq

/-- An element of a model. -/
structure Element where
  kind : ElementKind
  /-- The declared identifier, and where it is declared. -/
  id : Option String := none
  idRange : Option TextRange := none
  range : TextRange
  /-- Plain properties in the order they are written. -/
  properties : List (String × String) := []
  references : List ReferenceSite := []
  children : List (Containment Element) := []
deriving Repr, BEq

instance : Inhabited Element := ⟨{ kind := .entity, range := ⟨0, 0⟩ }⟩

namespace Element

/-- The value of a plain property. -/
def property? (e : Element) (key : String) : Option String :=
  (e.properties.find? (·.1 == key)).map (·.2)

/-- The references that a property holds. -/
def referencesOf (e : Element) (property : String) : List ReferenceSite :=
  e.references.filter (·.property == property)

/-- The containment of a feature, if the element writes it. -/
def containment? (e : Element) (feature : String) : Option (Containment Element) :=
  e.children.find? (·.feature == feature)

/-- The elements of one containment, each with the step that leads to it. -/
def stepsOf (c : Containment Element) : List (PathStep × Element) :=
  c.elements.zipIdx.map fun (element, index) => (⟨c.feature, index⟩, element)

/-- The elements directly nested in an element, each with the step that leads to it. -/
def childElements (e : Element) : List (PathStep × Element) :=
  e.children.flatMap stepsOf

/-- The element that a path leads to. -/
def walk (e : Element) : ElementPath → Option Element
  | [] => some e
  | step :: path =>
    match e.containment? step.feature with
    | none => none
    | some c =>
      match c.elements[step.index]? with
      | none => none
      | some child => child.walk path

mutual

/-- The element at `path` with everything nested in it, containers first. -/
def descendantsFrom (path : ElementPath) : Element → List (ElementPath × Element)
  | ⟨kind, id, idRange, range, properties, references, children⟩ =>
    (path, ⟨kind, id, idRange, range, properties, references, children⟩) ::
      descendantsOfAll path children
termination_by structural e => e

/-- What is nested in the containments of the element at `path`. -/
def descendantsOfAll (path : ElementPath) :
    List (Containment Element) → List (ElementPath × Element)
  | [] => []
  | c :: cs => descendantsOfOne path c ++ descendantsOfAll path cs
termination_by structural cs => cs

/-- What is nested in one containment of the element at `path`. -/
def descendantsOfOne (path : ElementPath) :
    Containment Element → List (ElementPath × Element)
  | ⟨feature, elements⟩ => descendantsOfList path feature 0 elements
termination_by structural c => c

/-- What is nested in elements of a feature, the first of which is at `index`. -/
def descendantsOfList (path : ElementPath) (feature : String) (index : Nat) :
    List Element → List (ElementPath × Element)
  | [] => []
  | e :: es =>
    descendantsFrom (path.child feature index) e ++
      descendantsOfList path feature (index + 1) es
termination_by structural es => es

end

/-- Every element with its path, in the order they are written. -/
def descendants (e : Element) : List (ElementPath × Element) :=
  descendantsFrom ElementPath.root e

end Element

end ModelWorkspace
