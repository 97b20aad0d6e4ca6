import ModelWorkspace.Proofs.Element.Unplaced

/-!
# Trees without the ends of their blocks

A mark that ends a block takes no text, and an outline does not look at it.  Neither does it
look at an `error` node with nothing but such marks in it.  If both are left out of a tree, what
is left stands where it stood (`Tree.width_pruned`), so the outline is the same, places included
(`Outline.ofTree_congr`).
-/

namespace ModelWorkspace

/-- The token is a mark that ends a block. -/
def Token.EndsBlock (t : Token) : Prop :=
  t.kind = .dedent ∧ t.chars = []

instance (t : Token) : Decidable t.EndsBlock :=
  inferInstanceAs (Decidable (t.kind = .dedent ∧ t.chars = []))

namespace Tree

mutual

/-- The tree without the marks that end blocks, and without the `error` nodes that hold nothing
else: itself, or nothing. -/
def pruned : Tree → List Tree
  | .leaf t => if t.EndsBlock then [] else [.leaf t]
  | .node kind children =>
    if kind = .error ∧ allPruned children = [] then [] else [.node kind (allPruned children)]
termination_by structural t => t

/-- The same for trees that stand side by side. -/
def allPruned : List Tree → List Tree
  | [] => []
  | t :: ts => t.pruned ++ allPruned ts
termination_by structural ts => ts

end

theorem allPruned_cons (t : Tree) (ts : List Tree) :
    allPruned (t :: ts) = t.pruned ++ allPruned ts := rfl

theorem allPruned_append (ts us : List Tree) :
    allPruned (ts ++ us) = allPruned ts ++ allPruned us := by
  induction ts with
  | nil => rfl
  | cons t ts ih => rw [List.cons_append, allPruned_cons, ih, allPruned_cons, List.append_assoc]

theorem pruned_node_congr (kind : SyntaxKind) {ts us : List Tree}
    (h : allPruned ts = allPruned us) : pruned (.node kind ts) = pruned (.node kind us) := by
  rw [pruned, pruned, h]

theorem pruned_node {kind : SyntaxKind} (h : kind ≠ .error) (children : List Tree) :
    pruned (.node kind children) = [.node kind (allPruned children)] := by
  rw [pruned, if_neg fun hboth => h hboth.1]

mutual

theorem width_pruned : (t : Tree) → totalWidth t.pruned = t.width
  | .leaf t => by
      rw [pruned]
      split
      · rename_i h
        rw [width, Token.width, h.2]
        rfl
      · rfl
  | .node kind children => by
      have hchildren := width_allPruned children
      rw [pruned, width]
      split
      · rename_i h
        rw [← hchildren, h.2]
      · rw [totalWidth, width, hchildren]
        rfl

theorem width_allPruned : (ts : List Tree) → totalWidth (allPruned ts) = totalWidth ts
  | [] => rfl
  | t :: ts => by
      rw [allPruned_cons, totalWidth_append, width_pruned t, width_allPruned ts, totalWidth]

end

end Tree

namespace Outline

variable {β : Type} {f : Nat × Tree → Option β}

/-- What `f` finds in a tree it finds in the pruned one. -/
structure SeesPruned (f : Nat × Tree → Option β) : Prop where
  mark : ∀ start t, t.EndsBlock → f (start, .leaf t) = none
  error : ∀ start children, f (start, .node .error children) = none
  node : ∀ start kind children,
    f (start, .node kind (Tree.allPruned children)) = f (start, .node kind children)

theorem SeesPruned.pruned (h : SeesPruned f) (start : Nat) (t : Tree) :
    (placed start t.pruned).filterMap f = [(start, t)].filterMap f := by
  cases t with
  | leaf t =>
      rw [Tree.pruned]
      split
      · rename_i hmark
        rw [List.filterMap_cons_none (h.mark start t hmark)]
        rfl
      · rfl
  | node kind children =>
      rw [Tree.pruned]
      split
      · rename_i hempty
        rw [hempty.1, List.filterMap_cons_none (h.error start children)]
        rfl
      · simp only [placed, List.filterMap_cons, h.node]

theorem SeesPruned.filterMap (h : SeesPruned f) (start : Nat) (ts : List Tree) :
    (placed start (Tree.allPruned ts)).filterMap f = (placed start ts).filterMap f := by
  induction ts generalizing start with
  | nil => rfl
  | cons t ts ih =>
      rw [Tree.allPruned_cons, placed_append, List.filterMap_append, h.pruned,
        Tree.width_pruned, ih, placed, ← List.filterMap_append]
      rfl

theorem SeesPruned.findSome? (h : SeesPruned f) (start : Nat) (ts : List Tree) :
    (placed start (Tree.allPruned ts)).findSome? f = (placed start ts).findSome? f := by
  rw [← List.head?_filterMap, ← List.head?_filterMap, h.filterMap]

/-- What is found in trees whatever their place. -/
theorem SeesPruned.trees {k : Tree → Option β} (h : SeesPruned fun x => k x.2)
    (ts : List Tree) : (Tree.allPruned ts).filterMap k = ts.filterMap k := by
  rw [← filterMap_placed k 0, ← filterMap_placed k 0, h.filterMap]

/-! ## Scalars and values -/

theorem seesPruned_identText? : SeesPruned fun x => identText? x.2 where
  mark := by
    intro start t ht
    exact if_neg (by rw [ht.1]; decide)
  error _ _ := rfl
  node _ _ _ := rfl

theorem segments_allPruned (children : List Tree) :
    segments (Tree.allPruned children) = segments children := by
  rw [segments_eq, segments_eq, seesPruned_identText?.trees]

theorem seesPruned_names? : SeesPruned fun x => (nameParts? x.2).map segments where
  mark _ _ _ := rfl
  error _ _ := rfl
  node := by
    intro start kind children
    cases kind <;> first | rfl | exact congrArg some (segments_allPruned children)

theorem seesPruned_literal? : SeesPruned fun x => literal? x.2 where
  mark := by
    intro start t ht
    exact if_neg (by rw [ht.1]; decide)
  error _ _ := rfl
  node _ _ _ := rfl

theorem scalarOf_allPruned (start : Nat) (children : List Tree) :
    scalarOf start (Tree.allPruned children) = scalarOf start children := by
  have hnames : ((Tree.allPruned children).findSome? nameParts?).map segments =
      (children.findSome? nameParts?).map segments := by
    rw [List.map_findSome?, List.map_findSome?, ← List.head?_filterMap, ← List.head?_filterMap]
    exact congrArg List.head? (seesPruned_names?.trees children)
  unfold scalarOf
  dsimp only
  rw [find?_isLiteral, find?_isLiteral, seesPruned_literal?.trees, Tree.width_allPruned]
  cases hpruned : (Tree.allPruned children).findSome? nameParts? <;>
    cases hparts : children.findSome? nameParts? <;> rw [hpruned, hparts] at hnames
  · cases hnames
  · cases hnames
  · dsimp only
    rw [Option.some.inj hnames]

theorem seesPruned_scalar? : SeesPruned scalar? where
  mark _ _ _ := rfl
  error _ _ := rfl
  node := by
    intro start kind children
    cases kind <;> first | rfl | exact congrArg some (scalarOf_allPruned start children)

theorem seesPruned_value? : SeesPruned value? where
  mark _ _ _ := rfl
  error _ _ := rfl
  node := by
    intro start kind children
    have hscalar := congrArg (fun s => some (Value.scalar s)) (scalarOf_allPruned start children)
    have hlist : value? (start, .node .listValue (Tree.allPruned children)) =
        value? (start, .node .listValue children) := by
      rw [value?, value?, Tree.width_allPruned, seesPruned_scalar?.filterMap]
    cases kind <;> first | rfl | exact hscalar | exact hlist

theorem seesPruned_block? : SeesPruned block? where
  mark _ _ _ := rfl
  error _ _ := rfl
  node := by
    intro start kind children
    have hblock : block? (start, .node .block (Tree.allPruned children)) =
        block? (start, .node .block children) := by
      rw [block?, block?, Tree.width_allPruned]
    cases kind <;> first | rfl | exact hblock

theorem seesPruned_keyOf? : SeesPruned keyOf? where
  mark := by
    intro start t ht
    exact if_neg (by rw [ht.1]; decide)
  error _ _ := rfl
  node _ _ _ := rfl

/-! ## Members -/

/-- What is no block is skipped, pruned or not. -/
theorem firstBlock_skip {start : Nat} {t : Tree} (h : block? (start, t) = none)
    (us : List Tree) : firstBlock start (t.pruned ++ us) = firstBlock (start + t.width) us := by
  have hwidth := Tree.width_pruned t
  have hnothing : t.pruned = [] → firstBlock start (t.pruned ++ us) =
      firstBlock (start + t.width) us := by
    intro hnil
    rw [hnil] at hwidth ⊢
    rw [← hwidth]
    rfl
  cases t with
  | leaf t =>
      by_cases hmark : t.EndsBlock
      · exact hnothing (if_pos hmark)
      · rw [Tree.pruned, if_neg hmark]
        rfl
  | node kind children =>
      by_cases hempty : kind = .error ∧ Tree.allPruned children = []
      · exact hnothing (if_pos hempty)
      · have hnone := (seesPruned_block?.node start kind children).trans h
        rw [Tree.pruned, if_neg hempty, List.singleton_append, firstBlock, hnone, Tree.width,
          Tree.width, Tree.width_allPruned]

mutual

theorem member_pruned (start : Nat) : (t : Tree) → members start t.pruned = member start t
  | .leaf t => by
      rw [Tree.pruned]
      split <;> rfl
  | .node kind children => by
      have hmembers := members_pruned start children
      have hblock := firstBlock_pruned start children
      rw [Tree.pruned]
      split
      · rename_i hempty
        rw [hempty.1]
        rfl
      · rw [members, members, List.append_nil]
        cases kind <;> try rfl
        · rw [member, member, key?_eq, key?_eq, seesPruned_keyOf?.findSome?,
            seesPruned_value?.findSome?, seesPruned_block?.findSome?, Tree.width_allPruned,
            hblock]
        · rw [member, member, seesPruned_value?.findSome?, Tree.width_allPruned, hmembers]

theorem members_pruned (start : Nat) : (ts : List Tree) →
    members start (Tree.allPruned ts) = members start ts
  | [] => rfl
  | t :: ts => by
      rw [Tree.allPruned_cons, members_append, member_pruned start t, Tree.width_pruned,
        members_pruned _ ts, members]

theorem firstBlock_pruned (start : Nat) : (ts : List Tree) →
    firstBlock start (Tree.allPruned ts) = firstBlock start ts
  | [] => rfl
  | .leaf t :: ts => by
      rw [Tree.allPruned_cons, firstBlock_skip rfl, firstBlock_pruned _ ts, firstBlock]
      rfl
  | .node kind children :: ts => by
      rw [Tree.allPruned_cons]
      by_cases hblock : kind = .block
      · subst hblock
        rw [Tree.pruned_node (by decide)]
        exact members_pruned start children
      · have hnone : block? (start, .node kind children) = none := by
          revert hblock
          cases kind <;> simp [block?]
        rw [firstBlock_skip hnone, firstBlock_pruned _ ts, firstBlock, hnone]

end

/-- The outline of a tree, places included, is that of the pruned tree. -/
theorem ofTree_congr {kind : SyntaxKind} {ts us : List Tree}
    (h : Tree.allPruned ts = Tree.allPruned us) :
    ofTree (.node kind ts) = ofTree (.node kind us) := by
  rw [ofTree, ofTree, ← members_pruned 0 ts, h, members_pruned]

end Outline
end ModelWorkspace
