import ModelWorkspace.Json.Scalar
import ModelWorkspace.Text.Quoted

/-!
# Readers of JSON values

Readers for the shapes of value that manifests, settings and transferred
documents are made of.  A reader expects one shape and reports anything else in
terms of what it expected.  Containers may be nested to a limited depth only;
readers of containers take the depth that is left.

A fault that a reader finds in the contents of a container, as opposed to its
text, is placed where reading stopped after the end of the container was looked
for.
-/

namespace ModelWorkspace
namespace Json

/-- How deep containers may be nested, less one. -/
def maxDepth : Nat := 127

namespace Reader

variable {α β σ : Type}

/-- The next character that is not blank.  At the end of the text a value is
missing. -/
def valueStart : Reader Char := do
  match ← peekToken with
  | none => failHere .endInValue
  | some c => return c

/-- Reads past a value of an unexpected shape, if it is a scalar, and reports it. -/
def mismatch (expected : String) : Reader α := do
  let found : Reader String := do
    match ← peek? with
    | some 'n' =>
      word ['n', 'u', 'l', 'l']
      return "null"
    | some 't' =>
      word ['t', 'r', 'u', 'e']
      return "boolean `true`"
    | some 'f' =>
      word ['f', 'a', 'l', 's', 'e']
      return "boolean `false`"
    | some '-' =>
      skipChar
      return (← number false).describe
    | some '"' => return "string " ++ quotedText (← quoted)
    | some '[' => return "sequence"
    | some '{' => return "map"
    | some c => if c.isDigit then return (← number true).describe else failNext .expectedValue
    | none => failNext .expectedValue
  let found ← found
  failHere (.wrongType found expected)

/-- A string. -/
def text (expected : String) : Reader String := do
  if (← valueStart) = '"' then quoted else mismatch expected

/-- A boolean. -/
def boolean : Reader Bool := do
  match ← valueStart with
  | 't' =>
    word ['t', 'r', 'u', 'e']
    return true
  | 'f' =>
    word ['f', 'a', 'l', 's', 'e']
    return false
  | _ => mismatch "a boolean"

/-- A natural number of at most `limit`. -/
def natural (limit : Nat) (expected : String) : Reader Nat := do
  let c ← valueStart
  if c = '-' ∨ c.isDigit then
    if c = '-' then
      skipChar
    match ← number (c ≠ '-') with
    | .natural n =>
      if n ≤ limit then return n
      else failHere (.wrongValue (Number.natural n).describe expected)
    | .negative n => failHere (.wrongValue (Number.negative n).describe expected)
    | .float positive value =>
      failHere (.wrongType (Number.float positive value).describe expected)
  else
    mismatch expected

/-- A value that may be `null`. -/
def optional (r : Reader α) : Reader (Option α) := do
  if (← peekToken) = some 'n' then
    word ['n', 'u', 'l', 'l']
    return none
  else
    return some (← r)

/-- Opens a container, whose bracket comes next, if the depth allows it, and reads
what is in it and behind it. -/
def inside (depth : Nat) (body : Reader α) (close : Reader Unit) : Reader α := do
  if depth = 0 then
    failNext .nestedTooDeep
  skipChar
  let result ← outcome body
  let closed ← outcome close
  match result, closed with
  | .ok a, .ok () => return a
  | .error f, _ => settle (.error f)
  | .ok _, .error f => settle (.error f)

/-- Takes the bracket that ends an array. -/
def closeArray : Reader Unit := do
  match ← peekToken with
  | some ']' => skipChar
  | some ',' =>
    skipChar
    if (← peekToken) = some ']' then failNext .commaAtEnd else failNext .furtherText
  | some _ => failNext .furtherText
  | none => failNext .endInArray

/-- Takes the brace that ends an object. -/
def closeObject : Reader Unit := do
  match ← peekToken with
  | some '\x7d' => skipChar
  | some ',' => failNext .commaAtEnd
  | some _ => failNext .furtherText
  | none => failNext .endInObject

/-- Whether an array has another element.  A comma in front of it is taken. -/
def hasElement (first : Bool) : Reader Bool := do
  match ← peekToken with
  | some ']' => return false
  | some c =>
    if first then
      return true
    else if c = ',' then
      skipChar
      match ← peekToken with
      | some ']' => failNext .commaAtEnd
      | some _ => return true
      | none => failNext .endInValue
    else
      failNext .expectedCommaInArray
  | none => failNext .endInArray

/-- The next key of an object, if there is one. -/
def key? (first : Bool) : Reader (Option String) := do
  match ← peekToken with
  | some '\x7d' => return none
  | some c =>
    if first then
      if c = '"' then return some (← quoted) else failNext .keyNotString
    else if c = ',' then
      skipChar
      match ← peekToken with
      | some '"' => return some (← quoted)
      | some '\x7d' => failNext .commaAtEnd
      | some _ => failNext .keyNotString
      | none => failNext .endInValue
    else
      failNext .expectedCommaInObject
  | none => failNext .endInObject

/-- Takes the colon behind a key. -/
def colon : Reader Unit := do
  match ← peekToken with
  | some ':' => skipChar
  | some _ => failNext .expectedColon
  | none => failNext .endInObject

/-- The elements of an array up to its bracket. -/
def elements (element : Reader α) : (fuel : Nat) → (first : Bool) → Reader (List α)
  | 0, _ => pure []
  | fuel + 1, first => do
    if ← hasElement first then
      let a ← element
      let others ← elements element fuel false
      return a :: others
    else
      return []

/-- An array of values of one shape. -/
def array (depth : Nat) (element : Reader α) : Reader (List α) := do
  if (← valueStart) = '[' then
    inside depth (do elements element (← roundLimit) true) closeArray
  else
    mismatch "a sequence"

/-- An array of exactly two values. -/
def pair (depth : Nat) (a : Reader α) (b : Reader β) : Reader (α × β) := do
  if (← valueStart) = '[' then
    let both : Reader (α × β) := do
      if ← hasElement true then
        let x ← a
        if ← hasElement false then
          let y ← b
          return (x, y)
        else
          failAnywhere (.tooShort 1 "a tuple of size 2")
      else
        failAnywhere (.tooShort 0 "a tuple of size 2")
    inside depth both closeArray
  else
    mismatch "a tuple of size 2"

/-- A bracket that is open while a value is read past. -/
inductive Frame where
  | array
  | object
deriving DecidableEq, Repr

/-- Takes a key and its colon without keeping it. -/
def ignoreKey : Reader Unit := do
  match ← peekToken with
  | some '"' => ignoreQuoted
  | some _ => failNext .keyNotString
  | none => failNext .endInObject
  colon

mutual

/-- Reads past a value.  `frames` are the containers around it that are read past
too; each round takes a character, so `fuel` need not exceed the length of the
text. -/
def ignoreValue : (fuel : Nat) → (frames : List Frame) → Reader Unit
  | 0, _ => failHere .endInValue
  | fuel + 1, frames => do
    match ← valueStart with
    | 'n' =>
      word ['n', 'u', 'l', 'l']
      ignoreRest fuel frames
    | 't' =>
      word ['t', 'r', 'u', 'e']
      ignoreRest fuel frames
    | 'f' =>
      word ['f', 'a', 'l', 's', 'e']
      ignoreRest fuel frames
    | '-' =>
      skipChar
      ignoreNumber
      ignoreRest fuel frames
    | '"' =>
      ignoreQuoted
      ignoreRest fuel frames
    | '[' =>
      skipChar
      match ← peekToken with
      | some ']' =>
        skipChar
        ignoreRest fuel frames
      | some _ => ignoreValue fuel (.array :: frames)
      | none => failNext .endInArray
    | '{' =>
      skipChar
      match ← peekToken with
      | some '\x7d' =>
        skipChar
        ignoreRest fuel frames
      | some _ =>
        ignoreKey
        ignoreValue fuel (.object :: frames)
      | none => failNext .endInObject
    | c =>
      if c.isDigit then
        ignoreNumber
        ignoreRest fuel frames
      else
        failNext .expectedValue

/-- Reads past what follows a value in the containers around it. -/
def ignoreRest : (fuel : Nat) → (frames : List Frame) → Reader Unit
  | _, [] => pure ()
  | 0, _ => failHere .endInValue
  | fuel + 1, frame :: frames => do
    match ← peekToken, frame with
    | some ',', .array =>
      skipChar
      ignoreValue fuel (.array :: frames)
    | some ',', .object =>
      skipChar
      ignoreKey
      ignoreValue fuel (.object :: frames)
    | some ']', .array =>
      skipChar
      ignoreRest fuel frames
    | some '\x7d', .object =>
      skipChar
      ignoreRest fuel frames
    | some _, .array => failNext .expectedCommaInArray
    | some _, .object => failNext .expectedCommaInObject
    | none, .array => failNext .endInArray
    | none, .object => failNext .endInObject

end

/-- Reads past a value that nobody asked for. -/
def ignored : Reader Unit := do
  ignoreValue (2 * (← roundLimit)) []

/-- Puts a value under a key: at the place of an earlier value of that key, or at the
end. -/
def putEntry (entries : List (String × β)) (key : String) (value : β) :
    List (String × β) :=
  if entries.any (·.1 == key) then
    entries.map fun e => if e.1 == key then (key, value) else e
  else
    entries ++ [(key, value)]

/-- The entries of an object up to its brace. -/
def entries (value : Reader β) :
    (fuel : Nat) → (first : Bool) → List (String × β) → Reader (List (String × β))
  | 0, _, found => pure found
  | fuel + 1, first, found => do
    match ← key? first with
    | none => return found
    | some key =>
      colon
      let v ← value
      entries value fuel false (putEntry found key v)

/-- An object whose keys are names and whose values have one shape. -/
def table (depth : Nat) (value : Reader β) : Reader (List (String × β)) := do
  if (← valueStart) = '{' then
    inside depth (do entries value (← roundLimit) true []) closeObject
  else
    mismatch "a map"

/-- A name out of a closed set. -/
def variantName (parse? : String → Option α) (expected : String) : Reader α := do
  let name ← text "variant identifier"
  match parse? name with
  | some a => return a
  | none => failHere (.unknownVariant name expected)

/-- A name out of a closed set, alone or as the only key of an object that holds
`null`. -/
def variant (depth : Nat) (parse? : String → Option α) (expected : String) : Reader α := do
  match ← valueStart with
  | '"' => variantName parse? expected
  | '{' =>
    if depth = 0 then
      failNext .nestedTooDeep
    skipChar
    match ← peekToken with
    | some '"' => pure ()
    | some _ => failNext .keyNotString
    | none => failNext .endInObject
    let a ← variantName parse? expected
    colon
    if (← valueStart) = 'n' then
      word ['n', 'u', 'l', 'l']
    else
      mismatch "unit"
    match ← peekToken with
    | some '\x7d' =>
      skipChar
      return a
    | some _ => failHere .expectedValue
    | none => failHere .endInObject
  | _ => failNext .expectedValue

end Reader

/-- A field of a record that is read into a state of type `σ`. -/
structure Field (σ : Type) where
  name : String
  /-- Whether the state already holds a value for the field. -/
  isSet : σ → Bool
  /-- Reads the value into the state. -/
  read : σ → Reader σ
  /-- Whether the field may be missing at the end of an array. -/
  hasDefault : Bool := false

/-- A record with named fields. -/
structure Record (σ α : Type) where
  name : String
  fields : List (Field σ)
  start : σ
  /-- The value that the fields make, or what is missing. -/
  finish : σ → Except Cause α

namespace Record

variable {σ α : Type}

/-- What a reader of the record expects. -/
def expected (r : Record σ α) : String :=
  "struct " ++ r.name

/-- What a reader of the record expects, with the number of its fields. -/
def expectedLength (r : Record σ α) : String :=
  r.expected ++ " with " ++ toString r.fields.length ++
    (if r.fields.length = 1 then " element" else " elements")

/-- The value that the fields make. -/
def complete (r : Record σ α) (state : σ) : Reader α :=
  match r.finish state with
  | .ok a => pure a
  | .error cause => Reader.failAnywhere cause

/-- Reads the fields of an object up to its brace.  A field may be written once;
keys that name no field are read past. -/
def fromObject (r : Record σ α) : (fuel : Nat) → (first : Bool) → σ → Reader α
  | 0, _, state => r.complete state
  | fuel + 1, first, state => do
    match ← Reader.key? first with
    | none => r.complete state
    | some key =>
      match r.fields.find? (·.name == key) with
      | none =>
        Reader.colon
        Reader.ignored
        r.fromObject fuel false state
      | some field =>
        if field.isSet state then
          Reader.failAnywhere (.duplicateField key)
        else
          Reader.colon
          let state ← field.read state
          r.fromObject fuel false state

/-- Reads the fields that stand, in their order, in an array.  `index` of them have
been read. -/
def fromArray (r : Record σ α) (index : Nat) : List (Field σ) → σ → Reader α
  | [], state => r.complete state
  | field :: fields, state => do
    if ← Reader.hasElement (index == 0) then
      let state ← field.read state
      r.fromArray (index + 1) fields state
    else if field.hasDefault then
      r.fromArray index fields state
    else
      Reader.failAnywhere (.tooShort index r.expectedLength)

/-- A record as an object, or as an array of its fields. -/
def reader (r : Record σ α) (depth : Nat) : Reader α := do
  match ← Reader.valueStart with
  | '[' => Reader.inside depth (r.fromArray 0 r.fields r.start) Reader.closeArray
  | '{' =>
    Reader.inside depth (do r.fromObject (← Reader.roundLimit) true r.start)
      Reader.closeObject
  | _ => Reader.mismatch r.expected

end Record

/-- The value that a text holds, with nothing but blanks around it. -/
def read {α : Type} (r : Reader α) (source : String) : Except Fault α :=
  let whole : Reader α := do
    let a ← r
    match ← Reader.peekToken with
    | some _ => Reader.failNext .furtherText
    | none => return a
  (whole.start (Cursor.ofText source)).1

end Json
end ModelWorkspace
