/-!
# Blank characters

The characters with the Unicode property `White_Space`, and the two questions
that manifests ask about them: whether a text is blank, and what is left of it
once the blanks around it are gone.
-/

namespace ModelWorkspace

/-- Whether a character has the property `White_Space`. -/
def isBlankChar (c : Char) : Bool :=
  let n := c.toNat
  (0x09 ≤ n && n ≤ 0x0D) || n == 0x20 || n == 0x85 || n == 0xA0 || n == 0x1680 ||
    (0x2000 ≤ n && n ≤ 0x200A) || n == 0x2028 || n == 0x2029 || n == 0x202F ||
    n == 0x205F || n == 0x3000

/-- The characters without the blanks at either end. -/
def trimBlanks (cs : List Char) : List Char :=
  ((cs.dropWhile isBlankChar).reverse.dropWhile isBlankChar).reverse

/-- Whether nothing but blanks is there. -/
def isBlankText (text : String) : Bool :=
  text.toList.all isBlankChar

end ModelWorkspace
