import ModelWorkspace.Text.Range
import ModelWorkspace.Token.Kind

/-!
# Scanning a line

Cuts a run of characters into tokens, each as long as possible.  What cannot
begin a token becomes an `error` token of one character, so the tokens always
cover the text: `flatMap_scan`.  A string that is not closed is one `error`
token that goes as far as the string does.

The scanner knows nothing of indentation: `ModelWorkspace.Token.Layout` hands it
one line at a time and adds the marks for nesting.
-/

namespace ModelWorkspace

/-- A token: its kind, its text, and the offset of its first byte. -/
structure Token where
  kind : SyntaxKind
  chars : List Char
  offset : Nat
deriving DecidableEq, Repr, Inhabited

namespace Token

/-- The number of bytes of the token's text. -/
def width (t : Token) : Nat :=
  byteWidth t.chars

/-- The bytes that the token covers. -/
def range (t : Token) : TextRange :=
  TextRange.ofWidth t.offset t.width

/-- The token's text. -/
def text (t : Token) : String :=
  String.ofList t.chars

end Token

namespace Scan

/-- The blanks that indent and separate. -/
def isBlank (c : Char) : Bool :=
  c == ' ' || c == '\t'

/-- ASCII letters and the underscore. -/
def isNameStart (c : Char) : Bool :=
  c.isAlpha || c == '_'

/-- ASCII letters, digits and the underscore. -/
def isNamePart (c : Char) : Bool :=
  c.isAlphanum || c == '_'

/-- Whether a character may stand in a comment. -/
def isCommentPart (c : Char) : Bool :=
  c != '\r' && c != '\n'

/-- The length of the longest run of characters of a class. -/
def runLength (p : Char → Bool) (cs : List Char) : Nat :=
  (cs.takeWhile p).length

/-- The length of an exponent at the front, `0` when there is none: a mark, a
sign that may be missing, and at least one digit. -/
def exponentLength : List Char → Nat
  | mark :: cs =>
    if mark = 'e' ∨ mark = 'E' then
      let sign := match cs with
        | c :: _ => if c = '+' ∨ c = '-' then 1 else 0
        | [] => 0
      let digits := runLength Char.isDigit (cs.drop sign)
      if digits = 0 then 0 else 1 + sign + digits
    else
      0
  | [] => 0

/-- The length of a fraction at the front, `0` when there is none: a point, at
least one digit, and an exponent that may be missing. -/
def fractionLength : List Char → Nat
  | '.' :: cs =>
    let digits := runLength Char.isDigit cs
    if digits = 0 then 0 else 1 + digits + exponentLength (cs.drop digits)
  | _ => 0

/-- How far a string reaches behind its opening quote, and whether its closing
quote is part of that.  A backslash takes the next character with it, unless a
line ends there. -/
def stringLength : List Char → Nat × Bool
  | [] => (0, false)
  | '"' :: _ => (1, true)
  | '\\' :: c :: cs =>
    if c = '\n' then (0, false)
    else
      let (length, closed) := stringLength cs
      (length + 2, closed)
  | c :: cs =>
    if c = '\\' ∨ c = '\r' ∨ c = '\n' then (0, false)
    else
      let (length, closed) := stringLength cs
      (length + 1, closed)

/-- The token that begins with `c`: its kind, and how many of the characters
`cs` behind `c` belong to it. -/
def lexeme (c : Char) (cs : List Char) : SyntaxKind × Nat :=
  if isBlank c then (.whitespace, runLength isBlank cs)
  else if c = '\n' then (.newline, 0)
  else if c = '\r' then
    if cs.head? = some '\n' then (.newline, 1) else (.error, 0)
  else if c = '#' then (.comment, runLength isCommentPart cs)
  else if isNameStart c then (.ident, runLength isNamePart cs)
  else if c.isDigit then
    let digits := runLength Char.isDigit cs
    match fractionLength (cs.drop digits) with
    | 0 => (.integer, digits)
    | fraction => (.decimal, digits + fraction)
  else if c = '.' then
    match fractionLength (c :: cs) with
    | 0 => (.dot, 0)
    | fraction => (.decimal, fraction - 1)
  else if c = '"' then
    match stringLength cs with
    | (length, true) => (.string, length)
    | (length, false) => (.error, length)
  else if c = ':' then (.colon, 0)
  else if c = ',' then (.comma, 0)
  else if c = '-' then (.dash, 0)
  else if c = '[' then (.leftBracket, 0)
  else if c = ']' then (.rightBracket, 0)
  else (.error, 0)

/-- The tokens of a run of characters whose first byte stands at `offset`. -/
def scan (offset : Nat) : List Char → List Token
  | [] => []
  | c :: cs =>
    let (kind, more) := lexeme c cs
    let token : Token := ⟨kind, c :: cs.take more, offset⟩
    token :: scan (offset + token.width) (cs.drop more)
termination_by cs => cs.length
decreasing_by simp only [List.length_drop, List.length_cons]; omega

/-- The texts of the tokens, one after the other, are the text. -/
theorem flatMap_scan (offset : Nat) (cs : List Char) :
    (scan offset cs).flatMap Token.chars = cs := by
  fun_induction scan offset cs with
  | case1 => rfl
  | case2 offset c cs kind more _ token ih => simp [ih, token]

end Scan

end ModelWorkspace
