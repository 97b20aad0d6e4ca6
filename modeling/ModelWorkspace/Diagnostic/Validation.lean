import ModelWorkspace.Diagnostic.Basic
import ModelWorkspace.Link.Basic
import ModelWorkspace.Text.Identifier

/-!
# Validating a unit

The diagnostics of a unit: what did not fit its layout, grammar and schema, a root
that cannot be named, identifiers that break the rule for identifiers, and
references that mean nothing.
-/

namespace ModelWorkspace
namespace Validation

/-- The diagnostic of a root without an identifier. -/
def missingId? (root : Element) : Option Diagnostic :=
  if root.id.isSome then
    none
  else
    some
      { range := TextRange.empty root.range.start, severity := .error, kind := .validation
        code := some DiagnosticCode.missingId
        message := root.kind.description ++ " has no id and cannot be referenced" }

/-- The diagnostic of an element whose identifier breaks the rule. -/
def invalidId? (e : Element) : Option Diagnostic :=
  match e.id, e.idRange with
  | some id, some range =>
    if isIdentifier id then
      none
    else
      some
        { range := range, severity := .error, kind := .validation
          code := some DiagnosticCode.invalidIdentifier
          message := "`" ++ id ++ "` is not a valid identifier" }
  | _, _ => none

/-- The diagnostics of the identifiers in a tree. -/
def ofIds (root : Element) : List Diagnostic :=
  (missingId? root).toList ++ root.descendants.filterMap fun (_, e) => invalidId? e

/-- The diagnostic of a reference that means nothing. -/
def unresolved? (r : LinkedReference) : Option Diagnostic :=
  if r.target.isSome then
    none
  else
    some
      { range := r.site.range, severity := .error, kind := .linking
        code := some DiagnosticCode.unresolvedReference
        message := "could not resolve " ++ r.site.target.description ++ " reference `" ++
          r.site.text ++ "`" }

end Validation

/-- The diagnostics of a document with its references, in the order of their ranges. -/
def validate (d : Document) (references : List LinkedReference) : List Diagnostic :=
  Diagnostic.inOrder
    (d.lexErrors.map Diagnostic.ofLexError ++ d.syntaxErrors.map Diagnostic.ofSyntaxError ++
      (d.root.map Validation.ofIds).getD [] ++ references.filterMap Validation.unresolved?)

end ModelWorkspace
