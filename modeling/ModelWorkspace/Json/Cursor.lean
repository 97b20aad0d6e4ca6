import ModelWorkspace.Json.Fault
import ModelWorkspace.Text.Range

/-!
# Reading a JSON text piece by piece

A cursor stands somewhere in a text.  A reader moves it forward and either gives
a value or fails; a failed reader leaves the cursor where it gave up, because a
fault without a place takes the place where reading stopped.

The readers here are those of single characters and words.
-/

namespace ModelWorkspace
namespace Json

/-- The place after one more character. -/
def Place.after (p : Place) (c : Char) : Place :=
  if c = '\n' then ⟨p.line + 1, 0⟩ else ⟨p.line, p.column + c.utf8Size⟩

/-- The place after some more bytes of a text, which may end inside a character or
be more than the text has. -/
def Place.afterBytes (p : Place) (bytes : Nat) : List Char → Place
  | [] => p
  | c :: cs =>
    if bytes = 0 then p
    else if c.utf8Size ≤ bytes then (p.after c).afterBytes (bytes - c.utf8Size) cs
    else ⟨p.line, p.column + bytes⟩

/-- The text that is left, the place reached, and the length of the whole text. -/
structure Cursor where
  rest : List Char
  place : Place
  size : Nat
deriving DecidableEq, Repr, Inhabited

namespace Cursor

/-- The cursor in front of a text. -/
def ofText (source : String) : Cursor :=
  ⟨source.toList, ⟨1, 0⟩, source.length⟩

/-- The cursor after the next character. -/
def next (cur : Cursor) : Cursor :=
  match cur.rest with
  | [] => cur
  | c :: cs => { cur with rest := cs, place := cur.place.after c }

/-- The cursor after some characters that hold no line end. -/
def skip (cur : Cursor) (count : Nat) : Cursor :=
  { cur with
    rest := cur.rest.drop count
    place := ⟨cur.place.line, cur.place.column + byteWidth (cur.rest.take count)⟩ }

/-- The place after the next byte. -/
def peekPlace (cur : Cursor) : Place :=
  cur.place.afterBytes 1 cur.rest

end Cursor

/-- A reader: it gives a value or a fault, and the cursor where it stopped. -/
abbrev Reader (α : Type) := ExceptT Fault (StateM Cursor) α

namespace Reader

variable {α β : Type}

/-- Runs a reader. -/
def start (r : Reader α) (cur : Cursor) : Except Fault α × Cursor :=
  (r.run.run cur)

/-- Fails at the place reached. -/
def failHere (cause : Cause) : Reader α := do
  let cur ← get
  throw ⟨cause, some cur.place⟩

/-- Fails at the next byte. -/
def failNext (cause : Cause) : Reader α := do
  let cur ← get
  throw ⟨cause, some cur.peekPlace⟩

/-- Fails without a place. -/
def failAnywhere (cause : Cause) : Reader α :=
  throw ⟨cause, none⟩

/-- What a reader gives, be it a value or a fault. -/
def outcome (r : Reader α) : Reader (Except Fault α) :=
  fun cur => let (result, cur) := r.start cur; (.ok result, cur)

/-- Goes on with an outcome.  A fault without a place gets the place reached. -/
def settle (result : Except Fault α) : Reader α := do
  match result with
  | .ok a => pure a
  | .error f => throw (f.placedAt (← get).place)

/-- The next character, which is not taken. -/
def peek? : Reader (Option Char) := do
  return (← get).rest.head?

/-- Takes the next character. -/
def skipChar : Reader Unit :=
  modify Cursor.next

/-- Whether a character is blank in JSON. -/
def isSpace (c : Char) : Bool :=
  c == ' ' || c == '\n' || c == '\t' || c == '\r'

/-- The place after the blanks at the front. -/
def placeAfterSpaces (p : Place) : List Char → Place
  | [] => p
  | c :: cs => if isSpace c then placeAfterSpaces (p.after c) cs else p

/-- Takes the blanks at the front and shows the character behind them. -/
def peekToken : Reader (Option Char) := do
  modify fun cur =>
    { cur with
      rest := cur.rest.dropWhile isSpace
      place := placeAfterSpaces cur.place cur.rest }
  peek?

/-- A number of rounds that is enough for a loop which takes a character in each. -/
def roundLimit : Reader Nat := do
  return (← get).size + 1

/-- Takes the characters of a word. -/
def word : List Char → Reader Unit
  | [] => pure ()
  | expected :: more => do
    match ← peek? with
    | none => failHere .endInValue
    | some c =>
      if c = expected then
        skipChar
        word more
      else
        failNext .expectedWord

/-- Takes the digits at the front. -/
def digits : Reader (List Char) := do
  let cur ← get
  let found := cur.rest.takeWhile Char.isDigit
  set (cur.skip found.length)
  return found

end Reader

end Json
end ModelWorkspace
