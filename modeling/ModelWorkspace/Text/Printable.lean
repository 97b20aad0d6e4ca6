import ModelWorkspace.Text.Printable.Table

/-!
# Characters that can be shown

A character is printable unless it is a control, a separator other than the blank, for
private use or not assigned.  A character that extends a grapheme is shown only together
with the character in front of it.
-/

namespace ModelWorkspace

/-- Whether a character is no control, separator, private or unassigned character.  The
blank is printable. -/
def isPrintable (c : Char) : Bool :=
  if c.toNat < 0x80 then 0x20 ≤ c.toNat && c.toNat < 0x7F
  else !PrintableTable.unprintable.holds c.toNat

/-- Whether a character has the property `Grapheme_Extend`. -/
def isGraphemeExtend (c : Char) : Bool :=
  PrintableTable.graphemeExtend.holds c.toNat

end ModelWorkspace
