import ModelWorkspace.Token.Scan
import ModelWorkspace.Token.Indentation

/-!
# Layout

Turns a text into its tokens, with `indent` and `dedent` tokens where the nesting
of lines changes.  They take no text and stand where the first character of the
line stands, behind its blanks.

A line's column is the width of its leading blanks; the marker of a list item
and the blanks behind it count too, so the properties of an item line up with
the text behind the dash.  Lines that are blank or hold a comment only change no
nesting, and their line end counts as blank space.  A line that goes back to a
column that was never opened is reported and leaves the open columns alone.

At the end of the text every open block is closed, except in completion mode:
there the text stops where a user is still typing, and closing the blocks would
invent structure.
-/

namespace ModelWorkspace

/-- A report on the indentation of one line. -/
structure LexError where
  message : String
  range : TextRange
deriving DecidableEq, Repr, Inhabited

/-- The tokens of a text with the reports on its indentation. -/
structure TokenStream where
  tokens : List Token
  errors : List LexError
deriving DecidableEq, Repr, Inhabited

namespace Layout

/-- The lines of a text, each with its line end. -/
def splitLines : List Char → List (List Char)
  | [] => []
  | c :: cs =>
    if c = '\n' then
      [c] :: splitLines cs
    else
      match splitLines cs with
      | [] => [[c]]
      | line :: lines => (c :: line) :: lines

/-- Whether a character belongs to a line end. -/
def isLineEnd (c : Char) : Bool :=
  c == '\n' || c == '\r'

/-- A line without the line end characters behind it. -/
def content (line : List Char) : List Char :=
  (line.reverse.dropWhile isLineEnd).reverse

/-- The width of the marker of a list item at the front, with the blanks behind
it.  A dash that no blank follows marks nothing. -/
def markerWidth : List Char → Nat
  | '-' :: cs => match Scan.runLength Scan.isBlank cs with
    | 0 => 0
    | blanks => 1 + blanks
  | _ => 0

/-- A token of layout, which takes no text. -/
def mark (kind : SyntaxKind) (offset : Nat) : Token :=
  ⟨kind, [], offset⟩

/-- The message on a line that goes back to a column that is not open. -/
def invalidDedent (column : Nat) (stack : IndentStack) : String :=
  "Invalid dedent to column " ++ toString column ++ "; open indentation levels are " ++
    stack.describe

/-- What a line does to the nesting: the marks to put before it, the columns open
from then on, and a report if its column was never opened. -/
structure Shift where
  marks : List Token
  stack : IndentStack
  errors : List LexError
deriving DecidableEq, Repr

/-- The shift of a line at `column`.  Marks stand at `anchor`; a report covers
`range`. -/
def shift (stack : IndentStack) (column anchor : Nat) (range : TextRange) : Shift :=
  if stack.current < column then
    ⟨[mark .indent anchor], stack.push column, []⟩
  else if column < stack.current then
    match stack.depthAbove? column with
    | some count =>
      ⟨List.replicate count (mark .dedent anchor), stack.drop count, []⟩
    | none => ⟨[], stack, [⟨invalidDedent column stack, range⟩]⟩
  else
    ⟨[], stack, []⟩

/-- The tokens of a line that is blank or holds a comment only: its line end is
blank space. -/
def blankLineTokens (offset : Nat) (line : List Char) : List Token :=
  (Scan.scan offset line).map fun t =>
    if t.kind = .newline then { t with kind := .whitespace } else t

/-- The blanks at the front of a line as a token, if there are any. -/
def leadingBlanks (offset : Nat) (blanks : List Char) : List Token :=
  if blanks = [] then [] else [⟨.whitespace, blanks, offset⟩]

/-- What one line at `offset` adds: its tokens, the columns open behind it, and
its report. -/
def line (offset : Nat) (stack : IndentStack) (chars : List Char) :
    List Token × IndentStack × List LexError :=
  let content := content chars
  let blanks := content.takeWhile Scan.isBlank
  let rest := content.drop blanks.length
  if rest = [] ∨ rest.head? = some '#' then
    (blankLineTokens offset chars, stack, [])
  else
    let anchor := offset + byteWidth blanks
    let shift := shift stack (blanks.length + markerWidth rest) anchor
      (TextRange.ofWidth offset (byteWidth content))
    (leadingBlanks offset blanks ++ shift.marks ++
        Scan.scan anchor (chars.drop blanks.length),
      shift.stack, shift.errors)

/-- What a run of lines adds; the first of them starts at `offset`. -/
def lines (offset : Nat) (stack : IndentStack) :
    List (List Char) → TokenStream × IndentStack
  | [] => (⟨[], []⟩, stack)
  | chars :: rest =>
    let (tokens, opened, errors) := line offset stack chars
    let (stream, final) := lines (offset + byteWidth chars) opened rest
    (⟨tokens ++ stream.tokens, errors ++ stream.errors⟩, final)

end Layout

/-- The tokens of a text.  In `completion` mode the blocks that are open at the
end of the text stay open. -/
def tokenize (completion : Bool) (text : String) : TokenStream :=
  let chars := text.toList
  let (stream, stack) := Layout.lines 0 IndentStack.fresh (Layout.splitLines chars)
  let closing :=
    if completion then []
    else List.replicate (stack.size - 1) (Layout.mark .dedent (byteWidth chars))
  { stream with tokens := stream.tokens ++ closing }

end ModelWorkspace
