/-!
# Strongly connected components

The nodes of a finite graph fall into components: two nodes are in one component when each can
be reached from the other.

One depth-first walk finds them, by Tarjan's algorithm.  It numbers the nodes in the order in
which it comes to them, and keeps those on a stack whose components are not complete.  For each
node it notes the least number of a node on the stack that it knows the node to lead to.  If
this is still the node's own number when the walk leaves the node, the node and all above it on
the stack are a component.  So a component is listed behind those it leads to.
-/

namespace ModelWorkspace
namespace Components

/-- A graph with the nodes `0, …, n - 1`: for each node those that follow it. -/
abbrev Graph (n : Nat) := Vector (List (Fin n)) n

/-- What a walk knows: how many nodes it has come to, their numbers, the least numbers noted for
them, the stack with the last node in front, also as marks, and the components so far. -/
structure Walk (n : Nat) where
  counter : Nat
  index : Vector (Option Nat) n
  lowlink : Vector Nat n
  onStack : Vector Bool n
  stack : List (Fin n)
  components : List (List (Fin n))
deriving Repr

/-- The nodes of a stack up to a node, and those behind it. -/
def popThrough {n : Nat} (v : Fin n) : List (Fin n) → List (Fin n) × List (Fin n)
  | [] => ([], [])
  | w :: ws =>
    if w = v then ([w], ws)
    else
      let (popped, rest) := popThrough v ws
      (w :: popped, rest)

theorem popThrough_append {n : Nat} {v : Fin n} {front : List (Fin n)} (h : v ∉ front)
    (rest : List (Fin n)) : popThrough v (front ++ v :: rest) = (front ++ [v], rest) := by
  induction front with
  | nil => simp [popThrough]
  | cons w front ih =>
    simp only [List.mem_cons, not_or] at h
    simp [popThrough, Ne.symm h.1, ih h.2]

/-- Marks with those of some nodes taken away. -/
def unmark {n : Nat} (marks : Vector Bool n) (nodes : List (Fin n)) : Vector Bool n :=
  nodes.foldl (fun marks (v : Fin n) => marks.set v false v.isLt) marks

theorem get_set {α : Type} {n : Nat} (xs : Vector α n) (v w : Fin n) (x : α) :
    (xs.set v x v.isLt).get w = if v = w then x else xs.get w := by
  simp only [Fin.ext_iff]
  exact Vector.getElem_set v.isLt w.isLt

theorem get_unmark {n : Nat} (marks : Vector Bool n) (nodes : List (Fin n)) (v : Fin n) :
    (unmark marks nodes).get v = (!nodes.contains v && marks.get v) := by
  unfold unmark
  induction nodes generalizing marks with
  | nil => simp
  | cons w nodes ih =>
    rw [List.foldl_cons, ih, get_set, List.contains_cons]
    by_cases same : w = v
    · simp [same]
    · have different : (v == w) = false := beq_eq_false_iff_ne.mpr (Ne.symm same)
      simp [same, different]

namespace Walk

variable {n : Nat}

/-- A walk that has not come to any node. -/
def start (n : Nat) : Walk n where
  counter := 0
  index := Vector.replicate n none
  lowlink := Vector.replicate n 0
  onStack := Vector.replicate n false
  stack := []
  components := []

/-- The walk comes to a node. -/
def enter (s : Walk n) (v : Fin n) : Walk n where
  counter := s.counter + 1
  index := s.index.set v (some s.counter) v.isLt
  lowlink := s.lowlink.set v s.counter v.isLt
  onStack := s.onStack.set v true v.isLt
  stack := v :: s.stack
  components := s.components

theorem index_enter (s : Walk n) (v w : Fin n) :
    (s.enter v).index.get w = if v = w then some s.counter else s.index.get w :=
  get_set s.index v w (some s.counter)

theorem lowlink_enter (s : Walk n) (v w : Fin n) :
    (s.enter v).lowlink.get w = if v = w then s.counter else s.lowlink.get w :=
  get_set s.lowlink v w s.counter

theorem onStack_enter (s : Walk n) (v w : Fin n) :
    (s.enter v).onStack.get w = if v = w then true else s.onStack.get w :=
  get_set s.onStack v w true

/-- A number is noted for a node if it is less than the one noted before. -/
def lower (s : Walk n) (v : Fin n) (low : Nat) : Walk n :=
  { s with lowlink := s.lowlink.set v (min (s.lowlink.get v) low) v.isLt }

theorem lowlink_lower (s : Walk n) (v w : Fin n) (low : Nat) :
    (s.lower v low).lowlink.get w = if v = w then min (s.lowlink.get v) low else s.lowlink.get w :=
  get_set s.lowlink v w (min (s.lowlink.get v) low)

/-- A node and all above it on the stack become a component. -/
def close (s : Walk n) (v : Fin n) : Walk n :=
  let (component, rest) := popThrough v s.stack
  { s with
    onStack := unmark s.onStack component
    stack := rest
    components := s.components ++ [component] }

/-- The step in terms of the parts of the stack. -/
theorem close_eq {s : Walk n} {v : Fin n} {front rest : List (Fin n)}
    (stack : s.stack = front ++ v :: rest) (h : v ∉ front) :
    s.close v =
      { s with
        onStack := unmark s.onStack (front ++ [v])
        stack := rest
        components := s.components ++ [front ++ [v]] } := by
  unfold close
  rw [stack, popThrough_append h]

/-- The walk leaves a node. -/
def leave (s : Walk n) (v : Fin n) : Walk n :=
  if some (s.lowlink.get v) = s.index.get v then s.close v else s

@[simp]
theorem index_leave (s : Walk n) (v : Fin n) : (s.leave v).index = s.index := by
  unfold leave
  split <;> rfl

@[simp]
theorem lowlink_leave (s : Walk n) (v : Fin n) : (s.leave v).lowlink = s.lowlink := by
  unfold leave
  split <;> rfl

end Walk

variable {n : Nat}

/-- The walk looks at a successor of a node.  To one that it has not come to it goes on, by
`connect`. -/
def follow (connect : Walk n → Fin n → Walk n) (v : Fin n) (s : Walk n) (w : Fin n) : Walk n :=
  match s.index.get w with
  | none =>
    let s := connect s w
    s.lower v (s.lowlink.get w)
  | some number => if s.onStack.get w then s.lower v number else s

/-- The walk after it has come to a node, gone on to all that this leads to, and left it.  No
way through nodes that the walk has not come to is longer than `depth`. -/
def connect (edges : Graph n) : (depth : Nat) → Walk n → Fin n → Walk n
  | 0, s, _ => s
  | depth + 1, s, v =>
    ((edges.get v).foldl (follow (connect edges depth) v) (s.enter v)).leave v

/-- The walk through some nodes and all they lead to. -/
def connectAll (edges : Graph n) (s : Walk n) (nodes : List (Fin n)) : Walk n :=
  nodes.foldl (fun s v => if (s.index.get v).isNone then connect edges n s v else s) s

/-- The components of a graph. -/
def all (edges : Graph n) : List (List (Fin n)) :=
  (connectAll edges (Walk.start n) (List.finRange n)).components

/-- The components whose nodes lie on a circle: all but single nodes that do not follow
themselves. -/
def cyclic (edges : Graph n) : List (List (Fin n)) :=
  (all edges).filter fun nodes =>
    match nodes with
    | [v] => (edges.get v).contains v
    | _ => true

end Components
end ModelWorkspace
