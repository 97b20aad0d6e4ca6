import ModelWorkspace.Text.LocationMap

/-!
# Calling off parses

A parse may be called off while it runs.  A request for a file that is not being parsed
is kept, and the next parse of that file is called off before it begins.
-/

namespace ModelWorkspace

/-- The parses that run, and the files whose next parse is to be called off. -/
structure CancelRegistry where
  /-- The files that are being parsed, and whether their parse has been called off. -/
  active : LocationMap Bool
  requested : LocationSet
deriving Repr

namespace CancelRegistry

/-- The registry while nothing is parsed. -/
def idle (requested : LocationSet) : CancelRegistry :=
  ⟨LocationMap.empty, requested⟩

/-- Whether a file is being parsed. -/
def isActive (registry : CancelRegistry) (l : Location) : Bool :=
  registry.active.contains l

/-- Calls off the parse of a file; the flag tells whether one was running. -/
def cancel (registry : CancelRegistry) (l : Location) : Bool × CancelRegistry :=
  if registry.isActive l then
    (true, { registry with active := registry.active.insert l true })
  else
    (false, { registry with requested := registry.requested.add l })

/-- Calls off all parses that run. -/
def cancelAll (registry : CancelRegistry) : CancelRegistry :=
  { registry with active := registry.active.map fun _ _ => true }

/-- Begins the parse of a file; the flag tells whether it was to be called off. -/
def start (registry : CancelRegistry) (l : Location) : Bool × CancelRegistry :=
  let cancelled := registry.requested.contains l
  (cancelled,
    { active := registry.active.insert l cancelled, requested := registry.requested.erase l })

/-- Ends the parse of a file. -/
def finish (registry : CancelRegistry) (l : Location) : CancelRegistry :=
  { registry with active := registry.active.erase l }

end CancelRegistry

end ModelWorkspace
