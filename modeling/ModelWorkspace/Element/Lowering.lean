import ModelWorkspace.Element.Basic
import ModelWorkspace.Tree.Outline

/-!
# From outlines to elements

Builds the root element of a file from the outline of its tree.  The schema of
an element's kind says what each key means: its identifier, nested elements, a
reference, or else a plain property.  What does not fit the schema is reported
like other errors of the text and left out.
-/

namespace ModelWorkspace

namespace Lowering

/-- A key as messages quote it. -/
def quoted (key : String) : String :=
  "`" ++ key ++ "`"

/-- The scalars that a reference property names: its inline value, or the values
of the items of its block. -/
def referenceScalars (value : Option Value) (members : List Member) : List Scalar :=
  match value with
  | some value => value.scalars
  | none => members.flatMap fun
    | .item _ (some value) _ => value.scalars
    | _ => []

/-- The sites of a reference property, numbered in order. -/
def sitesOf (spec : ReferenceSpec) (scalars : List Scalar) : List ReferenceSite :=
  scalars.zipIdx.map fun (s, index) => ⟨spec.property, index, s.text, s.range, spec.target⟩

/-- The text of a plain property. -/
def plainText : Value → String
  | .scalar s => s.text
  | .list _ items => ", ".intercalate (items.map (·.text))

/-- The range of the key of the first property among members. -/
def firstPropertyKey? (members : List Member) : Option TextRange :=
  members.findSome? fun
    | .property _ _ keyRange _ _ _ => some keyRange
    | .item .. => none

/-- A property whose key is read, apart from what is nested in it. -/
structure Entry where
  key : String
  keyRange : TextRange
  value : Option Value
  block : Option TextRange
  members : List Member

/-- The element with the identifier that a property declares. -/
def declareId (e : Element) (entry : Entry) : Element × List SyntaxError :=
  match entry.value with
  | some (.scalar s) => ({ e with id := some s.text, idRange := some s.range }, [])
  | _ => (e, [⟨"`id` expects a single value", entry.keyRange⟩])

/-- The element with the references that a property makes. -/
def addReferences (e : Element) (spec : ReferenceSpec) (entry : Entry) :
    Element × List SyntaxError :=
  let scalars := referenceScalars entry.value entry.members
  let sites := sitesOf spec (if spec.many then scalars else scalars.take 1)
  let errors :=
    if !spec.many && 1 < scalars.length then
      [⟨quoted entry.key ++ " takes a single reference", entry.keyRange⟩]
    else
      []
  ({ e with references := e.references ++ sites }, errors)

/-- The element with a plain property; a property without a value says nothing. -/
def addPlain (e : Element) (entry : Entry) : Element :=
  match entry.value with
  | some value => { e with properties := e.properties ++ [(entry.key, plainText value)] }
  | none => e

/-- What the list under a containment feature is reported for before its items are
looked at: `none` if the items do not count. -/
def listReports (entry : Entry) : Option (List SyntaxError) :=
  if entry.value.isSome then
    none
  else
    some (match firstPropertyKey? entry.members with
      | some range => [⟨"expected a `- ` list item", range⟩]
      | none => [])

mutual

/-- Adds the properties among `members` to an element of the given kind.  Keys in
`seen` have been used up by earlier properties. -/
def addMembers (e : Element) (seen : List String) : List Member → Element × List SyntaxError
  | [] => (e, [])
  | m :: ms =>
    let (e, seen, errors) := addMember e seen m
    let (e, later) := addMembers e seen ms
    (e, errors ++ later)
termination_by structural members => members

/-- Adds one member to an element, and its key to those that are used up. -/
def addMember (e : Element) (seen : List String) :
    Member → Element × List String × List SyntaxError
  | .item .. => (e, seen, [])
  | .property range key keyRange value block members =>
    let entry : Entry := ⟨key, keyRange, value, block, members⟩
    if key ∈ seen then
      (e, seen, [⟨"duplicate property " ++ quoted key, keyRange⟩])
    else if key = "id" ∧ e.kind.declaresId then
      let (e, errors) := declareId e entry
      (e, key :: seen, errors)
    else
      match e.kind.containment? key with
      | some spec =>
        let (elements, errors) :=
          if spec.many then
            match listReports entry with
            | none =>
              ([], [⟨quoted key ++ " expects a list of " ++ spec.kind.description ++ " items",
                keyRange⟩])
            | some reports =>
              let (elements, errors) := itemElements spec.kind members
              (elements, reports ++ errors)
          else
            match block with
            | some _ =>
              let (child, errors) := addMembers { kind := spec.kind, range := range } [] members
              ([child], errors)
            | none => ([], [⟨quoted key ++ " expects an indented block", keyRange⟩])
        ({ e with children := e.children ++ [⟨key, elements⟩] }, key :: seen, errors)
      | none =>
        match e.kind.reference? key with
        | some spec =>
          let (e, errors) := addReferences e spec entry
          (e, key :: seen, errors)
        | none => (addPlain e entry, key :: seen, [])
termination_by structural member => member

/-- The elements that the items among `members` hold. -/
def itemElements (kind : ElementKind) : List Member → List Element × List SyntaxError
  | [] => ([], [])
  | m :: ms =>
    let (elements, errors) := itemElement kind m
    let (others, later) := itemElements kind ms
    (elements ++ others, errors ++ later)
termination_by structural members => members

/-- The element that an item holds; a plain value is no element. -/
def itemElement (kind : ElementKind) : Member → List Element × List SyntaxError
  | .property .. => ([], [])
  | .item range (some _) _ =>
    ([], [⟨"expected a " ++ kind.description ++ ", found a plain value", range⟩])
  | .item range none members =>
    let (e, errors) := addMembers { kind := kind, range := range } [] members
    ([e], errors)
termination_by structural member => member

end

/-- The root element of a file from the first property at its top. -/
def root : List Member → Option Element × List SyntaxError
  | [] => (none, [])
  | .item .. :: ms => root ms
  | .property range key keyRange _ block members :: _ =>
    match ElementKind.ofRootKey? key with
    | none => (none, [⟨"unknown root element " ++ quoted key, keyRange⟩])
    | some kind =>
      match block with
      | none =>
        (some { kind := kind, range := range },
          [⟨quoted key ++ " expects an indented block", keyRange⟩])
      | some _ =>
        let (e, errors) := addMembers { kind := kind, range := range } [] members
        (some e, errors)

end Lowering

end ModelWorkspace
