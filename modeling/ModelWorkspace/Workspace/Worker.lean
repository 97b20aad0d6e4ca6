import ModelWorkspace.Document.Transfer
import ModelWorkspace.Text.Location

/-!
# Parse workers

A worker parses files apart from the workspace.  It is handed the text of a file and
hands back the document in transfer, which is read again on the other side.  Workers
share nothing but the queue of jobs, so how many there are and which of them takes a job
does not show in what comes back; only the order does, and it is set right again.
-/

namespace ModelWorkspace

/-- A file to parse, and whether its parse was called off before it began. -/
structure ParseJob where
  location : Location
  text : String
  cancelled : Bool := false
deriving DecidableEq, Repr

/-- Why a batch of jobs gives no documents. -/
inductive WorkerError where
  /-- There is no worker to take a job. -/
  | shutdown
  /-- A document could not be read back. -/
  | transfer (location : Location) (fault : Json.Fault)
deriving DecidableEq, Repr

/-- The error in words. -/
def WorkerError.message : WorkerError → String
  | .shutdown => "parse workers have shut down"
  | .transfer l fault =>
    "failed to transfer parse result for " ++ l.path ++ ": " ++ fault.message

/-- Some threads that parse. -/
structure ParseWorker where
  threads : Nat
deriving DecidableEq, Repr

namespace ParseWorker

/-- As many threads as asked for, and one at least. -/
def spawn (threads : Nat) : ParseWorker :=
  ⟨max 1 threads⟩

/-- What a thread makes of a job: the document in transfer, unless the parse was called off. -/
def serve (job : ParseJob) : Option String :=
  (Document.ofTextUnless job.cancelled job.text).map Document.dehydrate

/-- The document of a reply. -/
def receive (l : Location) : Option String → Except WorkerError (Location × Option Document)
  | none => .ok (l, none)
  | some payload =>
    match Document.rehydrate payload with
    | .ok document => .ok (l, some document)
    | .error fault => .error (.transfer l fault)

/-- The documents of a batch of jobs, in the order of their files. -/
def parseBatch (worker : ParseWorker) (jobs : List ParseJob) :
    Except WorkerError (List (Location × Option Document)) :=
  if worker.threads = 0 then .error .shutdown
  else
    (jobs.mapM fun job => receive job.location (serve job)).map fun results =>
      results.mergeSort fun a b => decide (¬ b.1 < a.1)

end ParseWorker

end ModelWorkspace
