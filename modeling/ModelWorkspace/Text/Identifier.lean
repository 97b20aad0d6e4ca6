import ModelWorkspace.Text.Identifier.Table

/-!
# The shape of identifiers

A declared identifier begins with `_` or a character of the property
`XID_Start`, and goes on with characters of the property `XID_Continue`.  Names
that break the rule are still indexed and resolved; they are reported.
-/

namespace ModelWorkspace

/-- Whether a character has the property `XID_Start`. -/
def isIdentifierStart (c : Char) : Bool :=
  if c.toNat < 0x80 then c.isAlpha
  else IdentifierTable.startRanges.holds c.toNat

/-- Whether a character has the property `XID_Continue`. -/
def isIdentifierContinue (c : Char) : Bool :=
  if c.toNat < 0x80 then c.isAlphanum || c == '_'
  else IdentifierTable.continueRanges.holds c.toNat

/-- Whether a text may be declared as an identifier. -/
def isIdentifier (text : String) : Bool :=
  match text.toList with
  | [] => false
  | c :: cs => (c == '_' || isIdentifierStart c) && cs.all isIdentifierContinue

theorem isIdentifierContinue_dot : isIdentifierContinue '.' = false := by decide

theorem isIdentifierContinue_at : isIdentifierContinue '@' = false := by decide

end ModelWorkspace
