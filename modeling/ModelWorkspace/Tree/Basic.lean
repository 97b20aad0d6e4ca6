import ModelWorkspace.Token.Scan

/-!
# Concrete trees

A concrete tree holds every token of a text, trivia and marks of layout
included, under nodes for the constructs that the tokens form.  Nodes carry no
offsets: where a node stands follows from the widths of what comes before it, so
the range of a child lies in the range of its parent by construction.
-/

namespace ModelWorkspace

/-- A tree whose leaves are tokens. -/
inductive Tree where
  | leaf (token : Token)
  | node (kind : SyntaxKind) (children : List Tree)
deriving Repr, Inhabited

/-- A tree as it is met on a walk from the root, parents before children. -/
inductive TreeRow where
  | node (depth : Nat) (kind : SyntaxKind) (range : TextRange)
  | token (depth : Nat) (kind : SyntaxKind) (range : TextRange) (text : String)
deriving DecidableEq, Repr

namespace Tree

/-- The kind of a tree's root. -/
def kind : Tree → SyntaxKind
  | .leaf token => token.kind
  | .node kind _ => kind

mutual

/-- The tokens of a tree, in order. -/
def leaves : Tree → List Token
  | .leaf token => [token]
  | .node _ children => allLeaves children
termination_by structural t => t

/-- The tokens of several trees, in order. -/
def allLeaves : List Tree → List Token
  | [] => []
  | t :: ts => t.leaves ++ allLeaves ts
termination_by structural ts => ts

end

mutual

/-- The number of bytes that a tree covers. -/
def width : Tree → Nat
  | .leaf token => token.width
  | .node _ children => totalWidth children
termination_by structural t => t

/-- The number of bytes that several trees cover. -/
def totalWidth : List Tree → Nat
  | [] => 0
  | t :: ts => t.width + totalWidth ts
termination_by structural ts => ts

end

/-- The text of a tree. -/
def text (t : Tree) : String :=
  String.ofList (t.leaves.flatMap Token.chars)

mutual

/-- The walk over a tree whose first byte stands at `start`. -/
def rows (depth start : Nat) : Tree → List TreeRow
  | .leaf token =>
    [.token depth token.kind (TextRange.ofWidth start token.width) token.text]
  | .node kind children =>
    .node depth kind (TextRange.ofWidth start (totalWidth children)) ::
      allRows (depth + 1) start children
termination_by structural t => t

/-- The walk over several trees, the first of which stands at `start`. -/
def allRows (depth start : Nat) : List Tree → List TreeRow
  | [] => []
  | t :: ts => t.rows depth start ++ allRows depth (start + t.width) ts
termination_by structural ts => ts

end

@[simp] theorem allLeaves_append (ts us : List Tree) :
    allLeaves (ts ++ us) = allLeaves ts ++ allLeaves us := by
  induction ts with
  | nil => rfl
  | cons t ts ih => simp [allLeaves, ih]

theorem mem_allLeaves {t : Tree} {ts : List Tree} (ht : t ∈ ts) {token : Token}
    (htoken : token ∈ t.leaves) : token ∈ allLeaves ts := by
  induction ts with
  | nil => cases ht
  | cons u us ih =>
      rcases List.mem_cons.mp ht with rfl | ht
      · exact List.mem_append_left _ htoken
      · exact List.mem_append_right _ (ih ht)

@[simp] theorem totalWidth_append (ts us : List Tree) :
    totalWidth (ts ++ us) = totalWidth ts + totalWidth us := by
  induction ts with
  | nil => simp [totalWidth]
  | cons t ts ih => simp [totalWidth, ih, Nat.add_assoc]

end Tree

end ModelWorkspace
