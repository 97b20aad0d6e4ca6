import ModelWorkspace.Workspace.Lifecycle

/-!
# Attempts

An operation of a workspace gives an answer, or there is a reason why it gives none.
Such a reason ends the whole operation: nothing that was done before it is handed on.
-/

namespace ModelWorkspace

/-- Why there is no answer. -/
inductive Failure where
  /-- A unit was to take a step that it must not take. -/
  | lifecycle (error : LifecycleError)
  /-- A location was to be cut within a character, which stops the program. -/
  | cut (location : Location)
deriving DecidableEq, Repr

/-- An answer, or why there is none. -/
abbrev Attempt (α : Type) := Except Failure α

/-- Steps of the lifecycle, as a part of something else. -/
def Attempt.ofSteps {α : Type} (steps : Except LifecycleError α) : Attempt α :=
  steps.mapError .lifecycle

end ModelWorkspace
