/-!
# Byte widths and byte ranges

Every position in this library is a count of UTF-8 bytes from the start of a
text.  This module measures characters in bytes, and holds the half-open ranges
`[start, stop)` that tokens, tree nodes, elements and diagnostics are anchored
at.  It says nothing about lines; `ModelWorkspace.Text.Lines` does.
-/

namespace ModelWorkspace

/-- The number of UTF-8 bytes that a run of characters takes. -/
def byteWidth : List Char → Nat
  | [] => 0
  | c :: cs => c.utf8Size + byteWidth cs

@[simp] theorem byteWidth_nil : byteWidth [] = 0 := rfl

@[simp] theorem byteWidth_cons (c : Char) (cs : List Char) :
    byteWidth (c :: cs) = c.utf8Size + byteWidth cs := rfl

@[simp] theorem byteWidth_append (a b : List Char) :
    byteWidth (a ++ b) = byteWidth a + byteWidth b := by
  induction a with
  | nil => simp
  | cons c cs ih => simp [ih, Nat.add_assoc]

/-- The characters before byte `offset`, or `none` when the offset lies past the
end of the text or inside a character. -/
def takeBytes : (offset : Nat) → List Char → Option (List Char)
  | 0, _ => some []
  | _ + 1, [] => none
  | offset + 1, c :: cs =>
    if c.utf8Size ≤ offset + 1 then
      (takeBytes (offset + 1 - c.utf8Size) cs).map (c :: ·)
    else
      none
termination_by structural _ cs => cs

/-- A range of bytes, from `start` up to but not including `stop`. -/
structure TextRange where
  start : Nat
  stop : Nat
deriving DecidableEq, Repr, Inhabited

namespace TextRange

/-- The range of `width` bytes that begins at `start`. -/
def ofWidth (start width : Nat) : TextRange :=
  ⟨start, start + width⟩

/-- The range that holds nothing and stands at `offset`. -/
def empty (offset : Nat) : TextRange :=
  ⟨offset, offset⟩

/-- Whether `offset` lies in the range or directly behind it, so that a cursor
after the last character still counts. -/
def touches (range : TextRange) (offset : Nat) : Bool :=
  range.start ≤ offset && offset ≤ range.stop

/-- The order of ranges in reports: by where they start, then by where they end. -/
def precedes (a b : TextRange) : Bool :=
  a.start < b.start || (a.start == b.start && a.stop ≤ b.stop)

end TextRange

end ModelWorkspace
