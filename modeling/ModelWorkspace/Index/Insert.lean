import ModelWorkspace.Index.Basic
import ModelWorkspace.Name.Assignment

/-!
# Indexing a unit

The entries of a unit replace those it had before.  Its root keeps the identifier
it declares if that is free in its package, and otherwise gets the next free
variant; entries of other units are never renamed.  Everything below the root is
named after the root's final name.
-/

namespace ModelWorkspace

/-- A unit that is about to be indexed. -/
structure UnitPlan where
  location : Location
  /-- The identifier of the package that owns the unit. -/
  package : String
  root : Element
  /-- The identifier that the root declares. -/
  rootName : String
deriving Repr

namespace UnitPlan

/-- The plan for a unit, whose root must declare an identifier. -/
def ofRoot (location : Location) (package : String) (root : Element) :
    Except NameError UnitPlan :=
  match root.id with
  | some id => .ok ⟨location, package, root, id⟩
  | none => .error (.anonymousRoot ElementPath.root)

/-- The names that the plan asks for. -/
def naming (plan : UnitPlan) : Naming :=
  Naming.withRootName plan.root plan.rootName

end UnitPlan

namespace Index

/-- An index while a unit goes into it, with the identifiers that the elements of the
unit have got so far. -/
structure Insertion where
  index : Index
  assigned : List (ElementPath × String)

namespace Insertion

/-- Adds the entry of one element.  An identifier that is in use is left to the entry
that has it. -/
def addName (plan : UnitPlan) (state : Insertion) (name : ElementName) : Insertion :=
  let id := Name.globalId plan.package name.qualified
  if state.index.contains id then
    state
  else
    { index := state.index.add
        { globalId := id
          localId := name.own
          localName := name.qualified
          container := name.path.parent?.bind fun parent => state.assigned.lookup parent
          location := plan.location
          path := name.path
          kind := name.kind
          package := plan.package }
      assigned := (name.path, id) :: state.assigned }

end Insertion

/-- The names under which the unit of a plan goes into an index that has no entries of
it. -/
def finalNaming (index : Index) (plan : UnitPlan) : Naming :=
  Naming.withRootName plan.root (Name.freshGlobal index.ids plan.package plan.rootName).1

/-- Puts the entries of a unit in place of those it had; the number tells how many
there are now. -/
def insertUnit (index : Index) (plan : UnitPlan) : Nat × Index :=
  let index := index.withoutLocation plan.location
  let state := (index.finalNaming plan).names.foldl (Insertion.addName plan) ⟨index, []⟩
  (state.assigned.length, state.index)

end Index

end ModelWorkspace
