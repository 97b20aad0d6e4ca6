import ModelWorkspace.Json.Cursor
import ModelWorkspace.Text.Binary

/-!
# Strings and numbers of JSON

Readers of the two kinds of JSON value that have a grammar of their own.  Each
comes in two forms: one gives the value, the other reads past a value that
nobody asked for and is less strict about it.
-/

namespace ModelWorkspace
namespace Json

/-- The value of a hexadecimal digit. -/
def hexValue? (c : Char) : Option Nat :=
  if c.isDigit then some (c.toNat - '0'.toNat)
  else if 'a' ≤ c ∧ c ≤ 'f' then some (c.toNat - 'a'.toNat + 10)
  else if 'A' ≤ c ∧ c ≤ 'F' then some (c.toNat - 'A'.toNat + 10)
  else none

/-- The number that four hexadecimal digits write. -/
def hexNumber? : List Char → Option Nat
  | [a, b, c, d] => do
    let a ← hexValue? a
    let b ← hexValue? b
    let c ← hexValue? c
    let d ← hexValue? d
    return ((a * 16 + b) * 16 + c) * 16 + d
  | _ => none

/-- Whether a number is the first half of a surrogate pair. -/
def isHighSurrogate (n : Nat) : Bool :=
  0xD800 ≤ n && n ≤ 0xDBFF

/-- Whether a number is the second half of a surrogate pair. -/
def isLowSurrogate (n : Nat) : Bool :=
  0xDC00 ≤ n && n ≤ 0xDFFF

/-- The character that a surrogate pair stands for. -/
def pairChar (high low : Nat) : Char :=
  Char.ofNat ((high - 0xD800) * 0x400 + (low - 0xDC00) + 0x10000)

/-- The character that a one-letter escape stands for. -/
def escaped? : Char → Option Char
  | '"' => some '"'
  | '\\' => some '\\'
  | '/' => some '/'
  | 'b' => some '\x08'
  | 'f' => some '\x0c'
  | 'n' => some '\n'
  | 'r' => some '\r'
  | 't' => some '\t'
  | _ => none

namespace Reader

/-- Takes four hexadecimal digits. -/
def hexDigits : Reader Nat := do
  let cur ← get
  if byteWidth (cur.rest.take 4) < 4 then
    throw ⟨.endInString, some (cur.place.afterBytes (byteWidth cur.rest) cur.rest)⟩
  else
    match hexNumber? (cur.rest.take 4) with
    | some n =>
      set (cur.skip 4)
      return n
    | none => throw ⟨.badEscape, some (cur.place.afterBytes 4 cur.rest)⟩

/-- Takes a character that has to follow the first half of a surrogate pair. -/
def surrogateMark (expected : Char) : Reader Unit := do
  match ← peek? with
  | none => failHere .endInString
  | some c => if c = expected then skipChar else failNext .unfinishedSurrogates

/-- The character that an escape by number stands for; its backslash and its letter
are taken already. -/
def numericEscape : Reader Char := do
  let n ← hexDigits
  if isLowSurrogate n then
    failHere .loneSurrogate
  else if isHighSurrogate n then
    surrogateMark '\\'
    surrogateMark 'u'
    let low ← hexDigits
    if isLowSurrogate low then return pairChar n low
    else failHere .loneSurrogate
  else
    return Char.ofNat n

/-- The character that an escape stands for; its backslash is taken already. -/
def escape : Reader Char := do
  match ← peek? with
  | none => failHere .endInString
  | some 'u' =>
    skipChar
    numericEscape
  | some c =>
    match escaped? c with
    | some meant =>
      skipChar
      return meant
    | none => failNext .badEscape

/-- The characters up to the closing quote, which is taken too.  Each round takes a
character, so `fuel` need not exceed the length of the text. -/
def stringRest : (fuel : Nat) → Reader (List Char)
  | 0 => failHere .endInString
  | fuel + 1 => do
    match ← peek? with
    | none => failHere .endInString
    | some '"' =>
      skipChar
      return []
    | some '\\' =>
      skipChar
      let c ← escape
      let cs ← stringRest fuel
      return c :: cs
    | some c =>
      if c.toNat < 0x20 then
        failNext .controlCharacter
      else
        skipChar
        let cs ← stringRest fuel
        return c :: cs

/-- The string whose opening quote comes next. -/
def quoted : Reader String := do
  skipChar
  let cs ← stringRest (← roundLimit)
  return String.ofList cs

/-- Reads past an escape; its backslash is taken already. -/
def ignoreEscape : Reader Unit := do
  match ← peek? with
  | none => failHere .endInString
  | some 'u' =>
    skipChar
    discard hexDigits
  | some c =>
    match escaped? c with
    | some _ => skipChar
    | none => failNext .badEscape

/-- Reads past the characters up to the closing quote, which is taken too. -/
def ignoreStringRest : (fuel : Nat) → Reader Unit
  | 0 => failHere .endInString
  | fuel + 1 => do
    match ← peek? with
    | none => failHere .endInString
    | some '"' => skipChar
    | some '\\' =>
      skipChar
      ignoreEscape
      ignoreStringRest fuel
    | some c =>
      if c.toNat < 0x20 then
        failHere .controlCharacter
      else
        skipChar
        ignoreStringRest fuel

/-- Reads past the string whose opening quote comes next. -/
def ignoreQuoted : Reader Unit := do
  skipChar
  ignoreStringRest (← roundLimit)

end Reader

/-- A number as it is read: an integer, negative or not, or a floating point number
with its sign. -/
inductive Number where
  | natural (n : Nat)
  | negative (n : Nat)
  | float (positive : Bool) (value : Binary)
deriving DecidableEq, Repr

/-- The largest integer that is kept exactly. -/
def maxNatural : Nat := Nat.pow 2 64 - 1

/-- The largest magnitude of a negative integer that is kept exactly. -/
def maxNegative : Nat := Nat.pow 2 63

/-- A number in messages. -/
def Number.describe : Number → String
  | .natural n => "integer `" ++ toString n ++ "`"
  | .negative n => "integer `-" ++ toString n ++ "`"
  | .float positive value =>
    "floating point `" ++ (if positive then "" else "-") ++ value.shortest.render ++ "`"

/-- The largest size of a decimal exponent that is kept exactly. -/
def maxExponent : Nat := Nat.pow 2 31 - 1

/-- The number that digits write behind those of `n`, as far as it stays within the
limit, and the digits that are left. -/
def fitting (limit n : Nat) : List Char → Nat × List Char
  | [] => (n, [])
  | c :: cs =>
    let longer := n * 10 + (c.toNat - '0'.toNat)
    if limit < longer then (n, c :: cs) else fitting limit longer cs

namespace Reader

/-- The number with the given significand and decimal exponent. -/
def scientific (positive : Bool) (digits : Nat) (exponent : Int) : Reader Number :=
  match Binary.ofScientific digits exponent with
  | some value => pure (.float positive value)
  | none => failHere .numberTooLarge

/-- Takes an exponent, whose mark comes next. -/
def exponent (positive : Bool) (digits : Nat) (shift : Int) : Reader Number := do
  skipChar
  let negative := (← peek?) == some '-'
  if negative || (← peek?) == some '+' then
    skipChar
  match ← peek? with
  | none => failHere .endInValue
  | some c =>
    if !c.isDigit then
      failNext .badNumber
    else
      let cur ← get
      let written ← Reader.digits
      let (size, left) := fitting maxExponent 0 written
      if left = [] then
        scientific positive digits (if negative then shift - size else shift + size)
      else if digits = 0 || negative then
        return .float positive ⟨0, 0⟩
      else
        set (cur.skip (written.length - left.length + 1))
        failHere .numberTooLarge

/-- Takes an exponent if there is one. -/
def exponentOrEnd (positive : Bool) (digits : Nat) (shift : Int) : Reader Number := do
  match ← peek? with
  | some 'e' | some 'E' => exponent positive digits shift
  | _ => scientific positive digits shift

/-- Takes a fraction, whose point comes next. -/
def fraction (positive : Bool) (digits : Nat) (shift : Int) : Reader Number := do
  skipChar
  let written ← Reader.digits
  if written = [] then
    match ← peek? with
    | none => failNext .endInValue
    | some _ => failNext .badNumber
  else
    let (digits, left) := fitting maxNatural digits written
    exponentOrEnd positive digits (shift - ((written.length - left.length : Nat) : Int))

/-- What follows the integer part of a number, `shift` of whose digits did not fit. -/
def numberRest (positive : Bool) (digits shift : Nat) : Reader Number := do
  match ← peek? with
  | some '.' => fraction positive digits shift
  | some 'e' | some 'E' => exponent positive digits shift
  | _ =>
    if shift != 0 then
      scientific positive digits shift
    else if positive then
      return .natural digits
    else if digits = 0 ∨ maxNegative < digits then
      scientific false digits 0
    else
      return .negative digits

/-- Takes a number whose sign is taken already. -/
def number (positive : Bool) : Reader Number := do
  match ← peek? with
  | none => failHere .endInValue
  | some c =>
    if !c.isDigit then
      failNext .badNumber
    else if c = '0' then
      skipChar
      match ← peek? with
      | some d => if d.isDigit then failNext .badNumber else numberRest positive 0 0
      | none => numberRest positive 0 0
    else
      let (digits, left) := fitting maxNatural 0 (← Reader.digits)
      numberRest positive digits left.length

/-- Reads past an exponent, whose mark comes next. -/
def ignoreExponent : Reader Unit := do
  skipChar
  match ← peek? with
  | some '+' | some '-' => skipChar
  | _ => pure ()
  let written ← Reader.digits
  if written = [] then
    failNext .badNumber

/-- Reads past a fraction, whose point comes next. -/
def ignoreFraction : Reader Unit := do
  skipChar
  let written ← Reader.digits
  if written = [] then
    failNext .badNumber
  match ← peek? with
  | some 'e' | some 'E' => ignoreExponent
  | _ => pure ()

/-- Reads past a number whose sign is taken already. -/
def ignoreNumber : Reader Unit := do
  match ← peek? with
  | some '0' =>
    skipChar
    match ← peek? with
    | some d => if d.isDigit then failNext .badNumber
    | none => pure ()
  | some c => if c.isDigit then discard Reader.digits else failNext .badNumber
  | none => failNext .badNumber
  match ← peek? with
  | some '.' => ignoreFraction
  | some 'e' | some 'E' => ignoreExponent
  | _ => pure ()

end Reader

end Json
end ModelWorkspace
