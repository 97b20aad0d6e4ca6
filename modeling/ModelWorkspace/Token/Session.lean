import ModelWorkspace.Token.Layout

/-!
# Tokenizing in a session

A session runs steps one after the other and remembers one thing between them:
whether completion mode is on.  Steps may be wrapped so that they run in
completion mode; behind the wrapped steps the mode is again what it was before,
whether they ended as usual or were abandoned.
-/

namespace ModelWorkspace

/-- A step of a tokenizing session. -/
inductive SessionStep where
  /-- Tokenize a text in the mode of the moment. -/
  | tokenize (text : String)
  /-- Run steps in completion mode. -/
  | completing (steps : List SessionStep)
  /-- Run steps in completion mode and abandon them at their end. -/
  | abandoned (steps : List SessionStep)
deriving Inhabited

/-- What a step of a session shows. -/
inductive SessionOutcome where
  /-- The mode that a text was tokenized in, and its tokens. -/
  | stream (completion : Bool) (stream : TokenStream)
  /-- The mode found behind wrapped steps. -/
  | restored (completion : Bool)
  /-- The mode found behind wrapped steps that were abandoned. -/
  | unwound (completion : Bool)

namespace SessionStep

mutual

/-- The outcomes of a step that begins in the given mode, in order. -/
def outcomes (completion : Bool) : SessionStep → List SessionOutcome
  | .tokenize text => [.stream completion (ModelWorkspace.tokenize completion text)]
  | .completing steps => allOutcomes true steps ++ [.restored completion]
  | .abandoned steps => allOutcomes true steps ++ [.unwound completion]
termination_by structural step => step

/-- The outcomes of steps that begin in the given mode, in order. -/
def allOutcomes (completion : Bool) : List SessionStep → List SessionOutcome
  | [] => []
  | step :: steps => step.outcomes completion ++ allOutcomes completion steps
termination_by structural steps => steps

end

end SessionStep

end ModelWorkspace
