/-!
# Sets of code points

The properties that Unicode gives to characters are written as tables: lists of ranges of
code points.
-/

namespace ModelWorkspace

/-- A set of code points: ranges with both ends included, in ascending order. -/
abbrev CodePoints := List (Nat × Nat)

namespace CodePoints

/-- Whether one of the ranges holds a code point. -/
def holds (ranges : CodePoints) (codePoint : Nat) : Bool :=
  ranges.any fun (first, last) => first ≤ codePoint && codePoint ≤ last

end CodePoints

end ModelWorkspace
