import ModelWorkspace.Text.Range

/-!
# Lines and columns

A `LineIndex` remembers where each line of a text starts, and converts between
byte offsets and positions.  Lines are ended by `\n`; columns count bytes and,
like lines, start at zero.  Turning a position into an offset looks at the line
only: it does not ask whether the line is long enough to have that column.

Offsets are numbers of 32 bits, and so is the sum of the start of a line and a column.
A sum that does not fit is taken modulo `2 ^ 32`; a build that checks for overflow stops
there instead.
-/

namespace ModelWorkspace

/-- A place in a text as an editor names it: line and column, both from zero. -/
structure Position where
  line : Nat
  column : Nat
deriving DecidableEq, Repr, Inhabited

namespace Position

/-- The position that a reader who counts from one writes as `line`, `column`.
A zero is taken for a one. -/
def ofOneBased (line column : Nat) : Position :=
  ⟨line - 1, column - 1⟩

/-- The line as shown to readers, who count from one. -/
def lineOneBased (p : Position) : Nat :=
  p.line + 1

/-- The column as shown to readers, who count from one. -/
def columnOneBased (p : Position) : Nat :=
  p.column + 1

/-- The position as shown to readers. -/
def render (p : Position) : String :=
  toString p.lineOneBased ++ ":" ++ toString p.columnOneBased

end Position

/-- The two ends of a range as positions. -/
structure LineSpan where
  first : Position
  last : Position
deriving DecidableEq, Repr

/-- Where the lines of a text start. -/
structure LineIndex where
  /-- The offset of each line's first byte, in order; the first is `0`. -/
  starts : List Nat
  /-- The width of the whole text. -/
  width : Nat
deriving DecidableEq, Repr

namespace LineIndex

/-- The offsets just behind the line ends of `cs`, whose first character stands
at `offset`. -/
def startsAfter : (offset : Nat) → List Char → List Nat
  | _, [] => []
  | offset, c :: cs =>
    let next := offset + c.utf8Size
    if c = '\n' then next :: startsAfter next cs else startsAfter next cs

/-- The line index of a text. -/
def ofText (text : String) : LineIndex :=
  ⟨0 :: startsAfter 0 text.toList, byteWidth text.toList⟩

/-- The number of lines; a text that ends in a line end has an empty last one. -/
def lineCount (index : LineIndex) : Nat :=
  index.starts.length

/-- Whether there are no lines at all, which no text brings about. -/
def isEmpty (index : LineIndex) : Bool :=
  index.starts.isEmpty

/-- The position of a byte offset.  An offset behind the text counts as its end. -/
def position (index : LineIndex) (offset : Nat) : Position :=
  let offset := min offset index.width
  let line := (index.starts.takeWhile (· ≤ offset)).length - 1
  ⟨line, offset - index.starts.getD line 0⟩

/-- How many offsets there are: as many as 32 bits make, or as the text has if it is too
long for them. -/
def capacity (index : LineIndex) : Nat :=
  max (Nat.pow 2 32) (index.width + 1)

/-- The byte offset of a position, if the text has that line. -/
def offset? (index : LineIndex) (p : Position) : Option Nat :=
  index.starts[p.line]?.map fun start => (start + p.column) % index.capacity

/-- Both ends of a byte range as positions. -/
def span (index : LineIndex) (range : TextRange) : LineSpan :=
  ⟨index.position range.start, index.position range.stop⟩

/-- The position just behind the last character. -/
def endPosition (index : LineIndex) : Position :=
  index.position index.width

end LineIndex

end ModelWorkspace
