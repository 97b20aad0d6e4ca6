/-!
# Locations

A `Location` is the canonical spelling of the path of a file or a directory:
segments separated by `/`, none of them empty or `.`, with `..` only where there
is nothing left to go up from, and no separator at the end.  Two spellings of
one path become the same location.  Links and aliases are not looked at here;
`ModelWorkspace.Workspace.Disk` resolves those.

Relations between locations are decided on the spelling: `a` lies below `b` when
it starts with `b` and a separator.
-/

namespace ModelWorkspace

/-- The canonical path of a file or directory. -/
structure Location where
  path : String
deriving DecidableEq, Repr, Inhabited, Hashable

namespace Location

/-- Locations are ordered by the spelling of their paths. -/
instance : LT Location := ⟨fun a b => a.path < b.path⟩

instance (a b : Location) : Decidable (a < b) :=
  inferInstanceAs (Decidable (a.path < b.path))

theorem ext_path {a b : Location} (h : a.path = b.path) : a = b := by
  cases a; cases b; cases h; rfl

theorem lt_trans {a b c : Location} (hab : a < b) (hbc : b < c) : a < c :=
  String.lt_trans hab hbc

theorem lt_irrefl (a : Location) : ¬ a < a :=
  String.lt_irrefl a.path

/-- Of two different locations one comes first. -/
theorem lt_of_not_lt_of_ne {a b : Location} (h : ¬ a < b) (hne : a ≠ b) : b < a := by
  apply Classical.byContradiction
  intro h'
  exact hne (ext_path (String.le_antisymm (String.not_lt.mp h') (String.not_lt.mp h)))

/-- One step of resolving a path: what the segments read so far, last one first,
become when `segment` follows. -/
def addSegment (absolute : Bool) (kept : List (List Char)) (segment : List Char) :
    List (List Char) :=
  if segment = [] ∨ segment = ['.'] then
    kept
  else if segment = ['.', '.'] then
    match kept with
    | last :: rest =>
      if last ≠ ['.', '.'] then rest
      else if absolute then kept
      else segment :: kept
    | [] => if absolute then [] else [segment]
  else
    segment :: kept

/-- The segments of a path with `.` and `..` resolved, first one first. -/
def resolveSegments (absolute : Bool) (segments : List (List Char)) : List (List Char) :=
  (segments.foldl (addSegment absolute) []).reverse

/-- The location that a path of `/`-separated segments leads to. -/
def resolve (path : List Char) : Location :=
  let absolute := path.head? == some '/'
  let joined := ['/'].intercalate (resolveSegments absolute (path.splitOn '/'))
  ⟨String.ofList (if absolute then '/' :: joined else joined)⟩

/-- The location of a path as a user writes it, where `\` separates segments as
well as `/` does. -/
def ofPath (path : String) : Location :=
  resolve (path.toList.map fun c => if c = '\\' then '/' else c)

/-- The characters of the path. -/
def chars (l : Location) : List Char :=
  l.path.toList

/-- The last segment. -/
def fileName (l : Location) : String :=
  String.ofList (l.chars.reverse.takeWhile (· ≠ '/')).reverse

/-- What follows the last dot of the last segment.  A segment whose only dot is
its first character has no extension. -/
def extension (l : Location) : Option String :=
  let reversed := l.fileName.toList.reverse
  match reversed.dropWhile (· ≠ '.') with
  | [] | ['.'] => none
  | _ => some (String.ofList (reversed.takeWhile (· ≠ '.')).reverse)

/-- The directory that holds the location, if the path names one. -/
def parent (l : Location) : Option Location :=
  match l.chars.reverse.dropWhile (· ≠ '/') with
  | [] => none
  | ['/'] => if 1 < l.chars.length then some ⟨"/"⟩ else none
  | _ :: before => some ⟨String.ofList before.reverse⟩

/-- The location reached from `l` by a further path.  A path that starts at the
root leads there whatever `l` is. -/
def join (l : Location) (path : String) : Location :=
  if path.toList.head? = some '/' ∨ l.path = "" then
    resolve path.toList
  else
    resolve (l.chars ++ '/' :: path.toList)

/-- Whether `l` lies strictly below `directory`. -/
def isBelow (l directory : Location) : Bool :=
  if directory.path = "/" then
    decide (1 < l.chars.length) && l.chars.head? == some '/'
  else
    (directory.chars ++ ['/']).isPrefixOf l.chars

/-- Whether `l` is `directory` or lies below it. -/
def isWithin (l directory : Location) : Bool :=
  l == directory || l.isBelow directory

/-- The number of segments. -/
def depth (l : Location) : Nat :=
  (l.chars.splitOn '/').countP (· ≠ [])

end Location

end ModelWorkspace
