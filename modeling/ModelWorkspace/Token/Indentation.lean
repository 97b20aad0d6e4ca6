/-!
# Open indentation columns

The columns of the blocks that are open at a line, outermost first when listed.
A fresh stack holds the base column `0`; callers that must keep it open ask
`isBase` first, because `pop` takes the base column away like any other.
-/

namespace ModelWorkspace

/-- The stack of open columns, deepest first. -/
structure IndentStack where
  columns : List Nat
deriving DecidableEq, Repr

namespace IndentStack

/-- The stack with only the base column open. -/
def fresh : IndentStack := ⟨[0]⟩

instance : Inhabited IndentStack := ⟨fresh⟩

/-- Opens a deeper column. -/
def push (stack : IndentStack) (column : Nat) : IndentStack :=
  ⟨column :: stack.columns⟩

/-- The deepest column and the stack without it; an empty stack stays empty. -/
def pop (stack : IndentStack) : Option Nat × IndentStack :=
  (stack.columns.head?, ⟨stack.columns.tail⟩)

/-- The deepest open column, `0` for an empty stack. -/
def current (stack : IndentStack) : Nat :=
  stack.columns.headD 0

/-- The open columns, outermost first. -/
def levels (stack : IndentStack) : List Nat :=
  stack.columns.reverse

/-- The number of open columns. -/
def size (stack : IndentStack) : Nat :=
  stack.columns.length

/-- Whether no column is open, not even the base one. -/
def isEmpty (stack : IndentStack) : Bool :=
  stack.columns.isEmpty

/-- Whether nothing but the base column is left to close. -/
def isBase (stack : IndentStack) : Bool :=
  stack.size ≤ 1

/-- How many columns stand above the deepest one equal to `column`, if one is. -/
def depthAbove? (stack : IndentStack) (column : Nat) : Option Nat :=
  stack.columns.findIdx? (· == column)

/-- The place of the deepest column equal to `column`, counted from the base. -/
def findLast? (stack : IndentStack) (column : Nat) : Option Nat :=
  (stack.depthAbove? column).map (stack.size - 1 - ·)

/-- Closes the deepest `count` columns. -/
def drop (stack : IndentStack) (count : Nat) : IndentStack :=
  ⟨stack.columns.drop count⟩

/-- The open columns as messages list them. -/
def describe (stack : IndentStack) : String :=
  "[" ++ ", ".intercalate (stack.levels.map toString) ++ "]"

@[simp] theorem levels_push (stack : IndentStack) (column : Nat) :
    (stack.push column).levels = stack.levels ++ [column] := by
  simp [push, levels]

/-- Closing a column takes the last of the listed ones. -/
@[simp] theorem levels_pop (stack : IndentStack) :
    stack.pop.2.levels = stack.levels.dropLast := by
  cases stack with
  | mk columns => cases columns <;> simp [pop, levels]

end IndentStack

end ModelWorkspace
