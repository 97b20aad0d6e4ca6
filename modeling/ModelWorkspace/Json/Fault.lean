/-!
# What can be wrong with a JSON text

A text can fail to be JSON, or be JSON of another shape than a reader expects.
Either way a `Fault` names the cause and, where it is known, the place: the line,
counted from one, and the number of bytes read in that line.
-/

namespace ModelWorkspace
namespace Json

/-- How far a text has been read: the line, counted from one, and the bytes of that
line. -/
structure Place where
  line : Nat
  column : Nat
deriving DecidableEq, Repr, Inhabited

/-- Why a text was refused. -/
inductive Cause where
  | endInValue
  | endInString
  | endInObject
  | endInArray
  | expectedValue
  | expectedWord
  | expectedColon
  | expectedCommaInObject
  | expectedCommaInArray
  | commaAtEnd
  | furtherText
  | keyNotString
  | badEscape
  | controlCharacter
  | loneSurrogate
  | unfinishedSurrogates
  | badNumber
  | numberTooLarge
  | nestedTooDeep
  | wrongType (found expected : String)
  | wrongValue (found expected : String)
  | unknownVariant (found expected : String)
  | missingField (name : String)
  | duplicateField (name : String)
  | tooShort (length : Nat) (expected : String)
  | reversedRange (start stop : Nat)
  | emptyName
deriving DecidableEq, Repr

/-- The cause in words. -/
def Cause.message : Cause → String
  | endInValue => "EOF while parsing a value"
  | endInString => "EOF while parsing a string"
  | endInObject => "EOF while parsing an object"
  | endInArray => "EOF while parsing a list"
  | expectedValue => "expected value"
  | expectedWord => "expected ident"
  | expectedColon => "expected `:`"
  | expectedCommaInObject => "expected `,` or `\x7d`"
  | expectedCommaInArray => "expected `,` or `]`"
  | commaAtEnd => "trailing comma"
  | furtherText => "trailing characters"
  | keyNotString => "key must be a string"
  | badEscape => "invalid escape"
  | controlCharacter => "control character (\\u0000-\\u001F) found while parsing a string"
  | loneSurrogate => "lone leading surrogate in hex escape"
  | unfinishedSurrogates => "unexpected end of hex escape"
  | badNumber => "invalid number"
  | numberTooLarge => "number out of range"
  | nestedTooDeep => "recursion limit exceeded"
  | wrongType found expected => "invalid type: " ++ found ++ ", expected " ++ expected
  | wrongValue found expected => "invalid value: " ++ found ++ ", expected " ++ expected
  | unknownVariant found expected =>
    "unknown variant `" ++ found ++ "`, expected " ++ expected
  | missingField name => "missing field `" ++ name ++ "`"
  | duplicateField name => "duplicate field `" ++ name ++ "`"
  | tooShort length expected =>
    "invalid length " ++ toString length ++ ", expected " ++ expected
  | reversedRange start stop =>
    "invalid range: " ++ toString start ++ ".." ++ toString stop
  | emptyName => "package name is empty"

/-- A cause with the place where it was found, if that is known. -/
structure Fault where
  cause : Cause
  place : Option Place
deriving DecidableEq, Repr

namespace Fault

/-- The fault in words. -/
def message (f : Fault) : String :=
  match f.place with
  | none => f.cause.message
  | some p =>
    f.cause.message ++ " at line " ++ toString p.line ++ " column " ++ toString p.column

/-- The fault at a place, unless it has one of its own. -/
def placedAt (f : Fault) (place : Place) : Fault :=
  { f with place := some (f.place.getD place) }

end Fault

end Json
end ModelWorkspace
