import ModelWorkspace.Text.Location

/-!
# The lifecycle of a unit

A unit is parsed, indexed, linked and validated, one step after the other.  It may
be sent back to an earlier state, and from there has to take every step again.
-/

namespace ModelWorkspace

/-- How far a unit has come. -/
inductive LifecycleState where
  | unbuilt
  | parsed
  | indexed
  | linked
  | validated
deriving DecidableEq, Repr, Inhabited

/-- A step that a unit must not take. -/
inductive LifecycleError where
  /-- A step forward that is not the next one. -/
  | skip (location : Location) (source target : LifecycleState)
  /-- A step back to a state that the unit has not reached. -/
  | upward (location : Location) (source target : LifecycleState)
deriving DecidableEq, Repr

namespace LifecycleState

/-- All states in order. -/
def all : List LifecycleState :=
  [unbuilt, parsed, indexed, linked, validated]

/-- The number of steps to a state. -/
def rank : LifecycleState → Nat
  | unbuilt => 0
  | parsed => 1
  | indexed => 2
  | linked => 3
  | validated => 4

/-- The state behind one, unless it is the last. -/
def next? : LifecycleState → Option LifecycleState
  | unbuilt => some parsed
  | parsed => some indexed
  | indexed => some linked
  | linked => some validated
  | validated => none

/-- The name of a state in messages. -/
def name : LifecycleState → String
  | unbuilt => "unbuilt"
  | parsed => "parsed"
  | indexed => "indexed"
  | linked => "linked"
  | validated => "validated"

/-- The state of a name. -/
def ofName? (name : String) : Option LifecycleState :=
  all.find? (·.name == name)

/-- One state comes before another when fewer steps lead to it. -/
instance : LT LifecycleState := ⟨fun a b => a.rank < b.rank⟩

instance (a b : LifecycleState) : Decidable (a < b) :=
  inferInstanceAs (Decidable (a.rank < b.rank))

end LifecycleState

/-- The error in words. -/
def LifecycleError.message : LifecycleError → String
  | .skip l source target =>
    l.path ++ ": cannot advance from " ++ source.name ++ " to " ++ target.name
  | .upward l source target =>
    l.path ++ ": cannot reset from " ++ source.name ++ " up to " ++ target.name

end ModelWorkspace
