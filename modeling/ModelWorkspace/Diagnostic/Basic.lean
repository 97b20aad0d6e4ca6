import ModelWorkspace.Document.Basic

/-!
# Diagnostics

What is wrong with a file is never a failure of the workspace: it is a diagnostic
on the file, with the range it is about, a code and a message.
-/

namespace ModelWorkspace

/-- How bad a diagnostic is. -/
inductive Severity where
  | error
  | warning
deriving DecidableEq, Repr

/-- What a diagnostic is about. -/
inductive DiagnosticKind where
  | lexical
  | syntactic
  | linking
  | validation
  | package
deriving DecidableEq, Repr

/-- A message about a range of a file. -/
structure Diagnostic where
  range : TextRange
  severity : Severity
  kind : DiagnosticKind
  code : Option String := none
  message : String
deriving DecidableEq, Repr

/-! The codes of diagnostics: `E00` for meaning, `E01` for indentation, `E02` for
grammar, `W` for warnings. -/

namespace DiagnosticCode

/-- A reference that resolves to nothing. -/
def unresolvedReference := "E0001"

/-- A root without an identifier. -/
def missingId := "E0005"

/-- Packages that depend on each other in a circle. -/
def dependencyCycle := "E0007"

/-- An identifier that breaks the rule for identifiers. -/
def invalidIdentifier := "E0015"

/-- A manifest that cannot be read. -/
def malformedManifest := "E0016"

/-- A line that goes back to a column that is not open. -/
def invalidIndentation := "E0105"

/-- Text that does not fit the grammar or the schema. -/
def syntaxError := "E0201"

/-- A dependency on a package that is not there. -/
def unknownDependency := "W0004"

/-- A dependency on a version that is not there. -/
def versionMismatch := "W0005"

end DiagnosticCode

namespace Diagnostic

/-- Whether a diagnostic is an error. -/
def isError (d : Diagnostic) : Bool :=
  d.severity == .error

/-- The diagnostic of a report on indentation. -/
def ofLexError (e : LexError) : Diagnostic :=
  { range := e.range, severity := .error, kind := .lexical
    code := some DiagnosticCode.invalidIndentation, message := e.message }

/-- The diagnostic of a report on grammar or schema. -/
def ofSyntaxError (e : SyntaxError) : Diagnostic :=
  { range := e.range, severity := .error, kind := .syntactic
    code := some DiagnosticCode.syntaxError, message := e.message }

/-- The diagnostics in the order of their ranges; those of one range stay in the
order they were found. -/
def inOrder (ds : List Diagnostic) : List Diagnostic :=
  ds.mergeSort fun a b => a.range.precedes b.range

/-- The number of errors. -/
def errorCount (ds : List Diagnostic) : Nat :=
  ds.countP isError

end Diagnostic

end ModelWorkspace
