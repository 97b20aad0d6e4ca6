import ModelWorkspace.Tree.Outline

/-!
# The core of a tree

What the outline of a tree looks at: the literals and the constructs of the grammar.  Blanks,
comments, layout, punctuation and what is set aside as an error are left out, and so is the
place of each token.
-/

namespace ModelWorkspace
namespace Tree

mutual

/-- The tree without what an outline skips: itself, or nothing. -/
def core : Tree → List Tree
  | .leaf t => if t.kind.isLiteral then [.leaf { t with offset := 0 }] else []
  | .node kind children => if kind = .error then [] else [.node kind (allCore children)]
termination_by structural t => t

/-- The same for trees that stand side by side. -/
def allCore : List Tree → List Tree
  | [] => []
  | t :: ts => t.core ++ allCore ts
termination_by structural ts => ts

end

@[simp] theorem allCore_nil : allCore [] = [] := rfl

@[simp] theorem allCore_cons (t : Tree) (ts : List Tree) :
    allCore (t :: ts) = t.core ++ allCore ts := rfl

@[simp] theorem allCore_append (ts us : List Tree) :
    allCore (ts ++ us) = allCore ts ++ allCore us := by
  induction ts with
  | nil => rfl
  | cons t ts ih => rw [List.cons_append, allCore_cons, ih, allCore_cons, List.append_assoc]

@[simp] theorem core_error (children : List Tree) : core (.node .error children) = [] := rfl

theorem core_node {kind : SyntaxKind} (h : kind ≠ .error) (children : List Tree) :
    core (.node kind children) = [.node kind (allCore children)] := by
  rw [core, if_neg h]

/-- The core of a node is made of the cores of its children. -/
theorem core_node_congr (kind : SyntaxKind) {ts us : List Tree} (h : allCore ts = allCore us) :
    core (.node kind ts) = core (.node kind us) := by
  rw [core, core, h]

theorem core_leaf {t : Token} (h : t.kind.isLiteral = false) : core (.leaf t) = [] := by
  simp [core, h]

end Tree
end ModelWorkspace
