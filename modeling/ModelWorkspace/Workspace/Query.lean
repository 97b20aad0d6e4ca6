import ModelWorkspace.Workspace.Basic

/-!
# Questions to a workspace

Everything that can be asked of a workspace between two updates, except for
completion.  Entries of the index are turned into elements by following their paths
in what is parsed now, so an answer never shows an element that is gone.
-/

namespace ModelWorkspace

/-- Where a definition stands. -/
structure Definition where
  location : Location
  /-- The range of the declared identifier, or of the whole element if it declares
  none. -/
  range : TextRange
  span : LineSpan
  kind : ElementKind
  globalId : String
deriving DecidableEq, Repr

namespace Workspace

/-- The tracked file at a location. -/
def unit? (ws : Workspace) (l : Location) : Option SourceUnit :=
  ws.units.get? l

/-- The root element of a file. -/
def root? (ws : Workspace) (l : Location) : Option Element :=
  (ws.unit? l).bind (·.document.root)

/-- The element of an index entry. -/
def resolveElement (ws : Workspace) (entry : IndexEntry) : Option Element :=
  (ws.root? entry.location).bind (·.walk entry.path)

/-- The diagnostics of a file. -/
def diagnostics (ws : Workspace) (l : Location) : List Diagnostic :=
  ((ws.unit? l).map (·.diagnostics)).getD []

/-- The references of a file, in the order they are written. -/
def references (ws : Workspace) (l : Location) : List LinkedReference :=
  ((ws.unit? l).map (·.links.references)).getD []

/-- The members that elements of a file show on behalf of entities. -/
def implicitMembers (ws : Workspace) (l : Location) : List ImplicitMember :=
  ((ws.unit? l).map (·.links.implicit)).getD []

/-- The package that owns a location. -/
def packageOf? (ws : Workspace) (l : Location) : Option Package :=
  ws.packages.packageFor? l

/-- All references that mean the element of a global identifier, with the files that
make them. -/
def referrers (ws : Workspace) (id : String) : List (Location × LinkedReference) :=
  ws.units.models.flatMap fun u =>
    (u.links.references.filter fun r => r.target.any (·.globalId == id)).map
      fun r => (u.location, r)

/-- The deepest of two elements, the second one if they are equally deep. -/
def deeperElement (found : Option (ElementPath × Element)) (next : ElementPath × Element) :
    Option (ElementPath × Element) :=
  match found with
  | none => some next
  | some best => if best.1.length ≤ next.1.length then some next else found

/-- The deepest element of a tree whose range touches an offset. -/
def elementAtOffset (root : Element) (offset : Nat) : Option (ElementPath × Element) :=
  (root.descendants.filter fun (_, e) => e.range.touches offset).foldl deeperElement none

/-- The deepest element at a position of a file. -/
def elementAt (ws : Workspace) (l : Location) (p : Position) :
    Option (ElementPath × Element) := do
  let u ← ws.unit? l
  let offset ← u.lines.offset? p
  elementAtOffset (← u.document.root) offset

/-- Where the element of an index entry is defined. -/
def definition? (ws : Workspace) (entry : IndexEntry) : Option Definition := do
  let u ← ws.unit? entry.location
  let e ← ws.resolveElement entry
  let range := e.idRange.getD e.range
  return ⟨entry.location, range, u.lines.span range, entry.kind, entry.globalId⟩

/-- The definition that the reference at a position of a file means. -/
def gotoDefinition (ws : Workspace) (l : Location) (p : Position) : Option Definition := do
  let u ← ws.unit? l
  let offset ← u.lines.offset? p
  let reference ← u.links.references.find? (·.site.range.touches offset)
  ws.definition? (← reference.target)

end Workspace
end ModelWorkspace
