import ModelWorkspace.Link.Candidates
import ModelWorkspace.Workspace.Query

/-!
# Completion

Completion offers what may be written at a reference, near elements first.  While a
user types, only the text before the cursor is looked at, with a name put in at the
cursor so that there is a reference even if nothing of it has been typed; what has
been typed restricts the offers.
-/

namespace ModelWorkspace

/-- An offer of completion. -/
structure CompletionItem where
  label : String
  globalId : String
  kind : ElementKind
  detail : String
  /-- Lower numbers come first. -/
  priority : Nat
deriving DecidableEq, Repr

namespace CompletionItem

/-- The offer of a candidate. -/
def ofCandidate (c : Candidate) : CompletionItem :=
  { label := c.label, globalId := c.entry.globalId, kind := c.entry.kind
    detail := c.entry.kind.description ++ " in " ++ c.entry.package
    priority := c.distance.rank }

/-- Whether one offer stands before another: by priority, then by label. -/
def precedes (a b : CompletionItem) : Bool :=
  a.priority < b.priority || (a.priority == b.priority && a.label ≤ b.label)

end CompletionItem

namespace Workspace

/-- The name that is put in at the cursor. -/
def cursorName : String := "__tessera_completion"

/-- The offers whose labels start with what has been typed. -/
def completionItems (ws : Workspace) (l : Location) (root : Element) (path : ElementPath)
    (property : String) (typed : List Char) : List CompletionItem :=
  let candidates := (ws.linker.candidates l root path property).filter fun c =>
    typed.isPrefixOf c.label.toList
  (candidates.map CompletionItem.ofCandidate).mergeSort CompletionItem.precedes

/-- The offers for a property of the element at a path of a file. -/
def completions (ws : Workspace) (l : Location) (path : ElementPath) (property : String) :
    List CompletionItem :=
  match ws.root? l with
  | some root => ws.completionItems l root path property []
  | none => []

/-- The first reference of a tree whose range ends at an offset, with the path of the
element that makes it. -/
def referenceEndingAt? (root : Element) (offset : Nat) : Option (ElementPath × ReferenceSite) :=
  root.descendants.findSome? fun (path, e) =>
    (e.references.find? (·.range.stop == offset)).map fun site => (path, site)

/-- The offers at an offset of a text that is typed into a file. -/
def completionsAtOffset (ws : Workspace) (l : Location) (text : String) (offset : Nat) :
    List CompletionItem :=
  let items? := do
    let before ← takeBytes offset text.toList
    let root ← (Document.ofUnfinishedText (String.ofList before ++ cursorName)).root
    let (path, site) ← referenceEndingAt? root (offset + byteWidth cursorName.toList)
    let skipped ← takeBytes site.range.start before
    return ws.completionItems l root path site.property (before.drop skipped.length)
  items?.getD []

/-- The offers at a position of a text that is typed into a file. -/
def completionsAt (ws : Workspace) (l : Location) (text : String) (p : Position) :
    List CompletionItem :=
  match (LineIndex.ofText text).offset? p with
  | some offset => ws.completionsAtOffset l text offset
  | none => []

end Workspace
end ModelWorkspace
