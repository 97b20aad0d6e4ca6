import ModelWorkspace.Element.Basic
import ModelWorkspace.Name.Global

/-!
# Naming the elements of a tree

Every element gets a local name among its siblings and a qualified name in its
file.  Siblings are named in the order they are written: the first one that
declares a name gets it, later ones a free variant, and elements that declare
none a synthetic name.
-/

namespace ModelWorkspace

/-- The names of one element. -/
structure ElementName where
  path : ElementPath
  own : String
  qualified : String
  kind : ElementKind
deriving DecidableEq, Repr

/-- Why an element has no name. -/
inductive NameError where
  | noSuchElement (path : ElementPath)
  | anonymousRoot (path : ElementPath)
deriving DecidableEq, Repr

/-- The error in words. -/
def NameError.message : NameError → String
  | .noSuchElement path => "no element at path " ++ path.render
  | .anonymousRoot path =>
    "root element has no id, so " ++ path.render ++ " has no qualified name"

namespace Name

/-- The names that siblings have got, the last one first, and for the identifiers that
they declare the number of the candidate that one of them got. -/
structure NamedSiblings where
  taken : List String
  numbers : List (String × Nat)
  mem_taken : ∀ e ∈ numbers, ∀ m ≤ e.2, candidate e.1 m ∈ taken

namespace NamedSiblings

/-- No sibling has a name. -/
def empty : NamedSiblings :=
  ⟨[], [], by simp⟩

/-- One more sibling has a name. -/
def add (named : NamedSiblings) (own : String) : NamedSiblings :=
  ⟨own :: named.taken, named.numbers, fun e mem m le =>
    List.mem_cons_of_mem own (named.mem_taken e mem m le)⟩

/-- The first candidate for an identifier that may be free: earlier siblings that
declare it have got all those before. -/
def start (named : NamedSiblings) (declared : String) : Nat :=
  match named.numbers.find? (·.1 == declared) with
  | some (_, n) => n + 1
  | none => 0

theorem mem_taken_of_lt_start {named : NamedSiblings} {declared : String} {m : Nat}
    (lt : m < named.start declared) : candidate declared m ∈ named.taken := by
  unfold start at lt
  cases found : named.numbers.find? (·.1 == declared) with
  | none => simp [found] at lt
  | some e =>
    rw [found] at lt
    have same : e.1 = declared := by simpa using List.find?_some found
    rw [← same]
    exact named.mem_taken e (List.mem_of_find?_eq_some found) m (Nat.le_of_lt_succ lt)

/-- The number of the candidate for an identifier that the next sibling gets. -/
def number (named : NamedSiblings) (declared : String) : Nat :=
  freeNumber id named.taken declared (named.start declared)

/-- One more sibling has the name that it declares, or a free variant of it. -/
def declare (named : NamedSiblings) (declared : String) : NamedSiblings where
  taken := candidate declared (named.number declared) :: named.taken
  numbers := (declared, named.number declared) :: named.numbers
  mem_taken := by
    intro e mem m le
    rcases List.mem_cons.mp mem with rfl | earlier
    · rcases Nat.lt_or_eq_of_le le with lt | rfl
      · refine List.mem_cons_of_mem _ ?_
        rcases Nat.lt_or_ge m (named.start declared) with known | searched
        · exact mem_taken_of_lt_start known
        · exact mem_taken_of_lt_freeNumber id searched lt
      · exact List.mem_cons_self
    · exact List.mem_cons_of_mem _ (named.mem_taken e earlier m le)

/-- The next sibling gets the first candidate that is free. -/
theorem candidate_number (named : NamedSiblings) (declared : String) :
    candidate declared (named.number declared) = fresh named.taken declared := by
  unfold number fresh freshBy
  rw [freeNumber_eq_of_taken id fun m lt => mem_taken_of_lt_start lt]

end NamedSiblings

/-- The local names of siblings, given the steps to them and the identifiers they
declare; `named` are the earlier siblings. -/
def siblingNames (named : NamedSiblings) : List (PathStep × Option String) → List String
  | [] => []
  | (_, some declared) :: siblings =>
    candidate declared (named.number declared) ::
      siblingNames (named.declare declared) siblings
  | (step, none) :: siblings =>
    let own := synthetic step.feature step.index
    own :: siblingNames (named.add own) siblings

/-- The local names of the elements directly nested in an element, in order. -/
def childNames (children : List (Containment Element)) : List String :=
  siblingNames NamedSiblings.empty
    ((children.flatMap Element.stepsOf).map fun (step, e) => (step, e.id))

mutual

/-- The names of the element at `path`, which are given, and of what is nested in it. -/
def assign (path : ElementPath) (own qualified : String) : Element → List ElementName
  | ⟨kind, _, _, _, _, _, children⟩ =>
    ⟨path, own, qualified, kind⟩ ::
      assignAll path qualified (childNames children) children
termination_by structural e => e

/-- The names in the containments of the element at `path`.  `names` are the local
names of the elements directly in them. -/
def assignAll (path : ElementPath) (qualified : String) (names : List String) :
    List (Containment Element) → List ElementName
  | [] => []
  | c :: cs =>
    assignOne path qualified names c ++
      assignAll path qualified (names.drop c.elements.length) cs
termination_by structural cs => cs

/-- The names in one containment of the element at `path`. -/
def assignOne (path : ElementPath) (qualified : String) (names : List String) :
    Containment Element → List ElementName
  | ⟨feature, elements⟩ => assignList path qualified feature 0 names elements
termination_by structural c => c

/-- The names of elements of a feature, the first of which is at `index`. -/
def assignList (path : ElementPath) (qualified feature : String) (index : Nat)
    (names : List String) : List Element → List ElementName
  | [] => []
  | e :: es =>
    let own := names.headD ""
    assign (path.child feature index) own (nested qualified own) e ++
      assignList path qualified feature (index + 1) names.tail es
termination_by structural es => es

end

end Name

/-- The names of all elements of a tree, in the order they are written. -/
structure Naming where
  names : List ElementName
deriving Repr

namespace Naming

/-- The names of a tree whose root is called `rootName`. -/
def withRootName (root : Element) (rootName : String) : Naming :=
  ⟨Name.assign ElementPath.root rootName rootName root⟩

/-- The names of a tree whose root declares its own. -/
def ofRoot (root : Element) : Except NameError Naming :=
  match root.id with
  | some id => .ok (withRootName root id)
  | none => .error (.anonymousRoot ElementPath.root)

/-- The names of the element at a path. -/
def find (naming : Naming) (path : ElementPath) : Except NameError ElementName :=
  match naming.names.find? (·.path == path) with
  | some name => .ok name
  | none => .error (.noSuchElement path)

end Naming

/-- The qualified name of the element at a path. -/
def qualifiedNameOf (root : Element) (path : ElementPath) : Except NameError String :=
  if (root.walk path).isNone then
    .error (.noSuchElement path)
  else
    match root.id with
    | none => .error (.anonymousRoot path)
    | some id => ((Naming.withRootName root id).find path).map (·.qualified)

end ModelWorkspace
