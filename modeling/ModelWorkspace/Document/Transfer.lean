import ModelWorkspace.Document.Basic
import ModelWorkspace.Json.Printer
import ModelWorkspace.Json.Reader

/-!
# Documents in transfer

A document is handed from one place to another as JSON text: `dehydrate` writes
it and `rehydrate` reads it back.  Everything in a document is written, so the
reader needs nothing but the text.
-/

namespace ModelWorkspace
namespace Transfer

open Json

/-! ## Writing -/

/-- A range as an array of its two ends. -/
def rangeText (r : TextRange) : String :=
  arrayText [toString r.start, toString r.stop]

/-- A token. -/
def tokenText (t : TokenInfo) : String :=
  objectText [("kind", quote t.kind.name), ("range", rangeText t.range)]

/-- A message with the range it is about. -/
def reportText (message : String) (range : TextRange) : String :=
  objectText [("message", quote message), ("range", rangeText range)]

/-- A plain property as an array of its key and its value. -/
def propertyText (property : String × String) : String :=
  arrayText [quote property.1, quote property.2]

/-- A reference site. -/
def siteText (s : ReferenceSite) : String :=
  objectText [("property", quote s.property), ("index", toString s.index),
    ("text", quote s.text), ("range", rangeText s.range), ("target", quote s.target.name)]

mutual

/-- An element with all that is nested in it. -/
def elementText : Element → String
  | ⟨kind, id, idRange, range, properties, references, children⟩ =>
    objectText [("kind", quote kind.name), ("id", optionText quote id),
      ("id_range", optionText rangeText idRange), ("range", rangeText range),
      ("properties", arrayText (properties.map propertyText)),
      ("references", arrayText (references.map siteText)),
      ("children", arrayText (containmentTexts children))]
termination_by structural e => e

/-- The containments of an element. -/
def containmentTexts : List (Containment Element) → List String
  | [] => []
  | c :: cs => containmentText c :: containmentTexts cs
termination_by structural cs => cs

/-- The elements of one feature. -/
def containmentText : Containment Element → String
  | ⟨feature, elements⟩ =>
    objectText [("feature", quote feature), ("elements", arrayText (elementTexts elements))]
termination_by structural c => c

/-- Several elements. -/
def elementTexts : List Element → List String
  | [] => []
  | e :: es => elementText e :: elementTexts es
termination_by structural es => es

end

/-! ## Reading -/

/-- The largest byte offset. -/
def maxOffset : Nat := Nat.pow 2 32 - 1

/-- A range whose ends stand in order. -/
def range (depth : Nat) : Reader TextRange := do
  let (start, stop) ← Reader.pair depth (Reader.natural maxOffset "u32")
    (Reader.natural maxOffset "u32")
  if start ≤ stop then return ⟨start, stop⟩
  else Reader.failAnywhere (.reversedRange start stop)

/-- A string that may be any. -/
def string : Reader String :=
  Reader.text "a string"

/-- The value of a field, which must not be missing. -/
def required {α : Type} (name : String) : Option α → Except Cause α
  | some a => .ok a
  | none => .error (.missingField name)

/-- The kind of a token. -/
def tokenKind (depth : Nat) : Reader SyntaxKind :=
  Reader.variant depth SyntaxKind.ofName? "a kind of token"

/-- The kind of an element. -/
def elementKind (depth : Nat) : Reader ElementKind :=
  Reader.variant depth ElementKind.ofName? "a kind of element"

/-- The fields of a token as far as they are read. -/
structure TokenFields where
  kind : Option SyntaxKind := none
  range : Option TextRange := none

/-- A token. -/
def token (depth : Nat) : Reader TokenInfo :=
  Record.reader (σ := TokenFields)
    { name := "TokenInfo"
      fields :=
        [{ name := "kind", isSet := fun s => s.kind.isSome
           read := fun s => return { s with kind := some (← tokenKind (depth - 1)) } },
         { name := "range", isSet := fun s => s.range.isSome
           read := fun s => return { s with range := some (← range (depth - 1)) } }]
      start := {}
      finish := fun s => do return ⟨← required "kind" s.kind, ← required "range" s.range⟩ }
    depth

/-- The fields of a report as far as they are read. -/
structure ReportFields where
  message : Option String := none
  range : Option TextRange := none

/-- A message with the range it is about. -/
def report (name : String) (depth : Nat) : Reader (String × TextRange) :=
  Record.reader (σ := ReportFields)
    { name := name
      fields :=
        [{ name := "message", isSet := fun s => s.message.isSome
           read := fun s => return { s with message := some (← string) } },
         { name := "range", isSet := fun s => s.range.isSome
           read := fun s => return { s with range := some (← range (depth - 1)) } }]
      start := {}
      finish := fun s => do
        return (← required "message" s.message, ← required "range" s.range) }
    depth

/-- A report on indentation. -/
def lexError (depth : Nat) : Reader LexError := do
  let (message, range) ← report "LexError" depth
  return ⟨message, range⟩

/-- A report on grammar or schema. -/
def syntaxError (depth : Nat) : Reader SyntaxError := do
  let (message, range) ← report "SyntaxError" depth
  return ⟨message, range⟩

/-- The fields of a reference site as far as they are read. -/
structure SiteFields where
  property : Option String := none
  index : Option Nat := none
  text : Option String := none
  range : Option TextRange := none
  target : Option ElementKind := none

/-- A reference site. -/
def site (depth : Nat) : Reader ReferenceSite :=
  Record.reader (σ := SiteFields)
    { name := "ReferenceSite"
      fields :=
        [{ name := "property", isSet := fun s => s.property.isSome
           read := fun s => return { s with property := some (← string) } },
         { name := "index", isSet := fun s => s.index.isSome
           read := fun s =>
             return { s with index := some (← Reader.natural maxNatural "usize") } },
         { name := "text", isSet := fun s => s.text.isSome
           read := fun s => return { s with text := some (← string) } },
         { name := "range", isSet := fun s => s.range.isSome
           read := fun s => return { s with range := some (← range (depth - 1)) } },
         { name := "target", isSet := fun s => s.target.isSome
           read := fun s => return { s with target := some (← elementKind (depth - 1)) } }]
      start := {}
      finish := fun s => do
        return ⟨← required "property" s.property, ← required "index" s.index,
          ← required "text" s.text, ← required "range" s.range,
          ← required "target" s.target⟩ }
    depth

/-- The fields of a containment as far as they are read. -/
structure ContainmentFields where
  feature : Option String := none
  elements : Option (List Element) := none

/-- The elements of one feature, each read by `element`. -/
def containment (element : Reader Element) (depth : Nat) : Reader (Containment Element) :=
  Record.reader (σ := ContainmentFields)
    { name := "Containment"
      fields :=
        [{ name := "feature", isSet := fun s => s.feature.isSome
           read := fun s => return { s with feature := some (← string) } },
         { name := "elements", isSet := fun s => s.elements.isSome
           read := fun s =>
             return { s with elements := some (← Reader.array (depth - 1) element) } }]
      start := {}
      finish := fun s => do
        return ⟨← required "feature" s.feature, ← required "elements" s.elements⟩ }
    depth

/-- The fields of an element as far as they are read.  The identifier and its range
may be missing. -/
structure ElementFields where
  kind : Option ElementKind := none
  id : Option (Option String) := none
  idRange : Option (Option TextRange) := none
  range : Option TextRange := none
  properties : Option (List (String × String)) := none
  references : Option (List ReferenceSite) := none
  children : Option (List (Containment Element)) := none

/-- An element; the elements nested in it are read by `nested`. -/
def elementWith (nested : Reader Element) (depth : Nat) : Reader Element :=
  Record.reader (σ := ElementFields)
    { name := "Element"
      fields :=
        [{ name := "kind", isSet := fun s => s.kind.isSome
           read := fun s => return { s with kind := some (← elementKind (depth - 1)) } },
         { name := "id", isSet := fun s => s.id.isSome
           read := fun s => return { s with id := some (← Reader.optional string) } },
         { name := "id_range", isSet := fun s => s.idRange.isSome
           read := fun s =>
             return { s with idRange := some (← Reader.optional (range (depth - 1))) } },
         { name := "range", isSet := fun s => s.range.isSome
           read := fun s => return { s with range := some (← range (depth - 1)) } },
         { name := "properties", isSet := fun s => s.properties.isSome
           read := fun s =>
             return { s with
               properties := some (← Reader.array (depth - 1)
                 (Reader.pair (depth - 2) string string)) } },
         { name := "references", isSet := fun s => s.references.isSome
           read := fun s =>
             return { s with
               references := some (← Reader.array (depth - 1) (site (depth - 2))) } },
         { name := "children", isSet := fun s => s.children.isSome
           read := fun s =>
             return { s with
               children := some (← Reader.array (depth - 1)
                 (containment nested (depth - 2))) } }]
      start := {}
      finish := fun s => do
        return { kind := ← required "kind" s.kind, id := s.id.join, idRange := s.idRange.join
                 range := ← required "range" s.range
                 properties := ← required "properties" s.properties
                 references := ← required "references" s.references
                 children := ← required "children" s.children } }
    depth

/-- An element.  Each level of elements takes four levels of containers. -/
def element : (depth : Nat) → Reader Element
  | depth + 4 => elementWith (element depth) (depth + 4)
  | depth => elementWith (Reader.failNext .nestedTooDeep) depth

/-- The fields of a document as far as they are read.  The root may be missing. -/
structure DocumentFields where
  tokens : Option (List TokenInfo) := none
  root : Option (Option Element) := none
  lexErrors : Option (List LexError) := none
  syntaxErrors : Option (List SyntaxError) := none

/-- A document. -/
def document (depth : Nat) : Reader Document :=
  Record.reader (σ := DocumentFields)
    { name := "ParsedDocument"
      fields :=
        [{ name := "tokens", isSet := fun s => s.tokens.isSome
           read := fun s =>
             return { s with
               tokens := some (← Reader.array (depth - 1) (token (depth - 2))) } },
         { name := "root", isSet := fun s => s.root.isSome
           read := fun s =>
             return { s with root := some (← Reader.optional (element (depth - 1))) } },
         { name := "lex_errors", isSet := fun s => s.lexErrors.isSome
           read := fun s =>
             return { s with
               lexErrors := some (← Reader.array (depth - 1) (lexError (depth - 2))) } },
         { name := "syntax_errors", isSet := fun s => s.syntaxErrors.isSome
           read := fun s =>
             return { s with
               syntaxErrors := some (← Reader.array (depth - 1)
                 (syntaxError (depth - 2))) } }]
      start := {}
      finish := fun s => do
        return { tokens := ← required "tokens" s.tokens, root := s.root.join
                 lexErrors := ← required "lex_errors" s.lexErrors
                 syntaxErrors := ← required "syntax_errors" s.syntaxErrors } }
    depth

end Transfer

namespace Document

open Transfer

/-- The document as JSON text. -/
def dehydrate (d : Document) : String :=
  Json.objectText [("tokens", Json.arrayText (d.tokens.map tokenText)),
    ("root", Json.optionText elementText d.root),
    ("lex_errors", Json.arrayText (d.lexErrors.map fun e => reportText e.message e.range)),
    ("syntax_errors",
      Json.arrayText (d.syntaxErrors.map fun e => reportText e.message e.range))]

/-- The document that a JSON text holds. -/
def rehydrate (source : String) : Except Json.Fault Document :=
  Json.read (Transfer.document Json.maxDepth) source

end Document

end ModelWorkspace
