/-!
# Writing JSON

Compact JSON text: no blanks between tokens, fields in the order they are given.
Strings keep every character that JSON lets stand; quotes, backslashes and control
characters are escaped, the common ones by a letter.
-/

namespace ModelWorkspace
namespace Json

/-- A hexadecimal digit in lower case. -/
def hexDigit (n : Nat) : Char :=
  (Nat.digitChar n)

/-- A character as it stands in a string. -/
def escapeChar (c : Char) : List Char :=
  if c = '"' then ['\\', '"']
  else if c = '\\' then ['\\', '\\']
  else if c = '\x08' then ['\\', 'b']
  else if c = '\x0c' then ['\\', 'f']
  else if c = '\n' then ['\\', 'n']
  else if c = '\r' then ['\\', 'r']
  else if c = '\t' then ['\\', 't']
  else if c.toNat < 0x20 then
    ['\\', 'u', '0', '0', hexDigit (c.toNat / 16), hexDigit (c.toNat % 16)]
  else [c]

/-- A string in quotes. -/
def quote (s : String) : String :=
  String.ofList ('"' :: s.toList.flatMap escapeChar ++ ['"'])

/-- An array of written values. -/
def arrayText (values : List String) : String :=
  "[" ++ ",".intercalate values ++ "]"

/-- An object of named, written values. -/
def objectText (fields : List (String × String)) : String :=
  "\x7b" ++ ",".intercalate (fields.map fun (name, value) => quote name ++ ":" ++ value) ++
    "\x7d"

/-- A written value, or `null`. -/
def optionText {α : Type} (write : α → String) : Option α → String
  | none => "null"
  | some a => write a

end Json
end ModelWorkspace
