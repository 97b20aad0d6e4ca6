import ModelWorkspace.Text.Blank

/-!
# Version requirements

A requirement is a pattern for versions: `*` or nothing accepts any, `^x` those of
the same first part, `~x.y` those of the same first two parts, and anything else
the same version.  Parts stand between dots; `=` and `v` in front do not count.
-/

namespace ModelWorkspace
namespace Version

/-- The parts of a version. -/
def parts (version : List Char) : List (List Char) :=
  (version.dropWhile fun c => c == '=' || c == 'v').splitOn '.'

/-- Whether a version meets a requirement. -/
def satisfies (requirement version : String) : Bool :=
  match trimBlanks requirement.toList with
  | [] => true
  | ['*'] => true
  | '^' :: rest => (parts rest).head? == (parts version.toList).head?
  | '~' :: rest => (parts rest).take 2 == (parts version.toList).take 2
  | exact => parts exact == parts version.toList

end Version
end ModelWorkspace
