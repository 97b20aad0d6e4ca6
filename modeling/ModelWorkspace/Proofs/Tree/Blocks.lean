import ModelWorkspace.Proofs.Token.Places
import ModelWorkspace.Proofs.Tree.Lossless
import ModelWorkspace.Proofs.Tree.Rules

/-!
# Blocks mirror the indentation

A tree mirrors the indentation if its marks are where its blocks begin and end: an `indent`
is the first leaf of a block, a `dedent` the last one that the block holds itself, and there
are no others (`Tree.Mirrors`).  Then the blocks of the tree are the bracketed parts of its
leaves (`Tree.Mirrors.matchesBrackets`).

Whatever is read mirrors the indentation, with one exception.  The elements of an inline list
are read up to its bracket or the end of the line; if the text is cut off in front of an
element, the mark that ends the block around the list is taken for an element
(`Tree.overruns`), and every block that is open then is ended by the mark of another one.
-/

namespace ModelWorkspace

/-- The marks of a tree stand where its blocks begin and end. -/
inductive Tree.Mirrors : Tree → Prop
  | leaf {t : Token} (plain : t.kind.isSynthetic = false) : Mirrors (.leaf t)
  | block {first last : Token} {inside : List Tree} (opens : first.kind = .indent)
      (closes : last.kind = .dedent) (nested : ∀ t ∈ inside, Mirrors t) :
      Mirrors (.node .block (.leaf first :: (inside ++ [.leaf last])))
  | node {kind : SyntaxKind} {children : List Tree} (other : kind ≠ .block)
      (nested : ∀ t ∈ children, Mirrors t) : Mirrors (.node kind children)

namespace Tree

/-- Whether the tree is the end of a block, set aside as an error. -/
def isStrayEnd : Tree → Bool
  | .node .error [.leaf t] => t.kind == .dedent
  | _ => false

mutual

/-- Whether an inline list of the tree holds the end of a block in place of an element. -/
def overruns : Tree → Bool
  | .leaf _ => false
  | .node kind children => kind == .listValue && children.any isStrayEnd || someOverruns children
termination_by structural t => t

/-- Whether a list in one of the trees does. -/
def someOverruns : List Tree → Bool
  | [] => false
  | t :: ts => t.overruns || someOverruns ts
termination_by structural ts => ts

end

theorem someOverruns_eq (ts : List Tree) : someOverruns ts = ts.any overruns := by
  induction ts with
  | nil => rfl
  | cons t ts ih => rw [someOverruns, List.any_cons, ih]

theorem overruns_node (kind : SyntaxKind) (children : List Tree) :
    overruns (.node kind children) =
      (kind == .listValue && children.any isStrayEnd || children.any overruns) := by
  rw [overruns, someOverruns_eq]

theorem overruns_list {e : Tree} {children : List Tree} (hmem : e ∈ children)
    (he : e.isStrayEnd = true) : overruns (.node .listValue children) = true := by
  have hany : children.any isStrayEnd = true := List.any_eq_true.mpr ⟨e, hmem, he⟩
  rw [overruns_node, hany]
  rfl

theorem overruns_of_mem {t : Tree} {children : List Tree} (kind : SyntaxKind)
    (hmem : t ∈ children) (ht : t.overruns = true) : overruns (.node kind children) = true := by
  have hany : children.any overruns = true := List.any_eq_true.mpr ⟨t, hmem, ht⟩
  rw [overruns_node, hany, Bool.or_true]

theorem Mirrors.isStrayEnd_eq {t : Tree} (h : t.Mirrors) : t.isStrayEnd = false := by
  unfold isStrayEnd
  split
  · cases h with
    | node _ nested =>
        cases nested _ List.mem_cons_self with
        | leaf plain =>
            refine beq_false_of_ne fun hkind => ?_
            rw [hkind] at plain
            cases plain
  · rfl

theorem Mirrors.overruns_eq {t : Tree} (h : t.Mirrors) : t.overruns = false := by
  induction h with
  | leaf => rfl
  | block _ _ nested ih =>
      rw [overruns_node]
      simpa [overruns] using ih
  | @node kind children other nested ih =>
      have hends : children.any isStrayEnd = false :=
        List.any_eq_false.mpr fun t ht => by simp [(nested t ht).isStrayEnd_eq]
      have hchildren : children.any overruns = false :=
        List.any_eq_false.mpr fun t ht => by simp [ih t ht]
      rw [overruns_node, hends, hchildren, Bool.and_false, Bool.or_false]

end Tree

namespace Grammar

open Nesting

/-! ## What a rule makes of its place -/

/-- The trees mirror the indentation, and what is left keeps to its place; or the text is cut
off and a list has overrun. -/
def Fits (cut : Bool) (place : Place) (depth : Nat) {tokens : List Token}
    (r : Reading tokens) : Prop :=
  (cut = true ∧ ∃ t ∈ r.trees, t.overruns = true) ∨
    ((∀ t ∈ r.trees, t.Mirrors) ∧ Placed cut place depth (kinds r.rest))

/-- The same for the inside of a block, the last leaf of which ends the block. -/
def FitsBlock (cut : Bool) (depth : Nat) {tokens : List Token} (r : Reading tokens) : Prop :=
  (cut = true ∧ ∃ t ∈ r.trees, t.overruns = true) ∨
    ∃ inside last, r.trees = inside ++ [.leaf last] ∧ last.kind = .dedent ∧
      (∀ t ∈ inside, t.Mirrors) ∧ Placed cut .front depth (kinds r.rest)

variable {stop depth : Nat} {cut : Bool} {place next : Place} {tokens left ts : List Token}
  {t : Token}

section Combinators

variable {r : Reading tokens}

theorem Fits.nothing (h : Placed cut place depth (kinds tokens)) :
    Fits cut place depth (Reading.nothing tokens) :=
  .inr ⟨List.forall_mem_nil _, h⟩

theorem Fits.withLeaf (h : Fits cut place depth r) (ht : t.kind.isSynthetic = false) :
    Fits cut place depth (r.withLeaf t) := by
  rcases h with ⟨hcut, tree, hmem, hover⟩ | ⟨hmirrors, hrest⟩
  · exact .inl ⟨hcut, tree, List.mem_cons_of_mem _ hmem, hover⟩
  · exact .inr ⟨List.forall_mem_cons.mpr ⟨.leaf ht, hmirrors⟩, hrest⟩

/-- What mirrors the indentation may stand in front. -/
theorem Fits.followedBy (hspace : ∀ t ∈ r.trees, t.Mirrors) (hrest : r.rest = left)
    {behind : Reading left} (h : Fits cut place depth behind) :
    Fits cut place depth (r.followedBy hrest behind) := by
  rcases h with ⟨hcut, tree, hmem, hover⟩ | ⟨hmirrors, hleft⟩
  · exact .inl ⟨hcut, tree, List.mem_append_right _ hmem, hover⟩
  · exact .inr ⟨List.forall_mem_append.mpr ⟨hspace, hmirrors⟩, hleft⟩

theorem FitsBlock.followedBy (hspace : ∀ t ∈ r.trees, t.Mirrors) (hrest : r.rest = left)
    {behind : Reading left} (h : FitsBlock cut depth behind) :
    FitsBlock cut depth (r.followedBy hrest behind) := by
  rcases h with ⟨hcut, tree, hmem, hover⟩ | ⟨inside, last, htrees, hlast, hmirrors, hleft⟩
  · exact .inl ⟨hcut, tree, List.mem_append_right _ hmem, hover⟩
  · refine .inr ⟨r.trees ++ inside, last, ?_, hlast,
      List.forall_mem_append.mpr ⟨hspace, hmirrors⟩, hleft⟩
    rw [List.append_assoc, ← htrees]
    rfl

/-- What is read behind need only fit if nothing has overrun before. -/
theorem Fits.append (h : Fits cut place depth r) {inner : Nat} {behind : Reading r.rest}
    (hbehind : Placed cut place depth (kinds r.rest) → Fits cut next inner behind) :
    Fits cut next inner (r.append behind) := by
  rcases h with ⟨hcut, tree, hmem, hover⟩ | ⟨hmirrors, hrest⟩
  · exact .inl ⟨hcut, tree, List.mem_append_left _ hmem, hover⟩
  · exact (hbehind hrest).followedBy hmirrors rfl

theorem Fits.appendBlock (h : Fits cut place depth r) {inner : Nat} {behind : Reading r.rest}
    (hbehind : Placed cut place depth (kinds r.rest) → FitsBlock cut inner behind) :
    FitsBlock cut inner (r.append behind) := by
  rcases h with ⟨hcut, tree, hmem, hover⟩ | ⟨hmirrors, hrest⟩
  · exact .inl ⟨hcut, tree, List.mem_append_left _ hmem, hover⟩
  · exact (hbehind hrest).followedBy hmirrors rfl

theorem Fits.wrap (h : Fits cut place depth r) {kind : SyntaxKind} (hkind : kind ≠ .block) :
    Fits cut place depth (r.wrap kind) := by
  rcases h with ⟨hcut, tree, hmem, hover⟩ | ⟨hmirrors, hrest⟩
  · exact .inl ⟨hcut, _, List.mem_singleton_self _, Tree.overruns_of_mem kind hmem hover⟩
  · exact .inr ⟨List.forall_mem_singleton.mpr (.node hkind hmirrors), hrest⟩

theorem Fits.wrapFrom (h : Fits cut place depth r) {kind : SyntaxKind} (hkind : kind ≠ .block)
    (ht : t.kind.isSynthetic = false) : Fits cut place depth (r.wrapFrom kind t) :=
  (h.withLeaf ht).wrap hkind

/-- The inside of a block with the mark that opens it. -/
theorem FitsBlock.wrapFrom (h : FitsBlock cut depth r) (ht : t.kind = .indent) :
    Fits cut .front depth (r.wrapFrom .block t) := by
  rcases h with ⟨hcut, tree, hmem, hover⟩ | ⟨inside, last, htrees, hlast, hmirrors, hrest⟩
  · exact .inl ⟨hcut, _, List.mem_singleton_self _,
      Tree.overruns_of_mem .block (List.mem_cons_of_mem _ hmem) hover⟩
  · refine .inr ⟨List.forall_mem_singleton.mpr ?_, hrest⟩
    rw [htrees]
    exact .block ht hlast hmirrors

end Combinators

/-! ## Rules without blocks -/

theorem kinds_of_isLayout (ht : t.kind.isLayout = true) (ts : List Token) :
    kinds (t :: ts) = t.kind :: kinds ts := by
  refine kinds_cons ?_ ts
  revert ht
  cases t.kind <;> simp [SyntaxKind.isLayout, SyntaxKind.isTrivia]

theorem isSynthetic_of_isLayout {kind : SyntaxKind} (h : kind.isLayout = false) :
    kind.isSynthetic = false := by
  revert h
  cases kind <;> simp [SyntaxKind.isLayout, SyntaxKind.isSynthetic]

theorem isLayout_of_beginsValue {kind : SyntaxKind} (h : beginsValue kind = true) :
    kind.isLayout = false := by
  revert h
  cases kind <;> simp [beginsValue, SyntaxKind.isLayout]

/-- Behind a token within a line one is still within it. -/
theorem placed_tail (ht : t.kind.isLayout = false)
    (h : Placed cut .within depth (kinds (t :: ts))) :
    Placed cut .within depth (kinds ts) := by
  cases htrivia : t.kind.isTrivia with
  | true => rwa [kinds_trivia htrivia] at h
  | false =>
      rw [kinds_cons htrivia] at h
      exact h.within ht

/-- Where the next token is a mark of layout, or there is none, one is at the front of a
line. -/
theorem placed_front (ht : ∀ t ∈ tokens.head?, t.kind.isLayout = true)
    (h : Placed cut place depth (kinds tokens)) : Placed cut .front depth (kinds tokens) := by
  refine h.front fun kind hkind => ?_
  cases tokens with
  | nil => cases hkind
  | cons t ts =>
      have hlayout := ht t rfl
      rw [kinds_of_isLayout hlayout] at hkind
      obtain rfl : t.kind = kind := Option.some.inj hkind
      exact hlayout

/-- What is skipped is no mark. -/
theorem mirrors_skip {passes : SyntaxKind → Bool}
    (hpasses : ∀ kind, passes kind = true → kind.isSynthetic = false) (tokens : List Token) :
    ∀ t ∈ (skip passes tokens).trees, t.Mirrors :=
  skip_induction (P := fun _ r => ∀ t ∈ r.trees, t.Mirrors) (fun _ => List.forall_mem_nil _)
    (fun _ _ _ ht hr => List.forall_mem_cons.mpr ⟨.leaf (hpasses _ ht), hr⟩) tokens

theorem mirrors_trivia (tokens : List Token) : ∀ t ∈ (trivia tokens).trees, t.Mirrors :=
  mirrors_skip (fun kind h => by revert h; cases kind <;> decide) tokens

theorem mirrors_blank (tokens : List Token) : ∀ t ∈ (blank tokens).trees, t.Mirrors :=
  mirrors_skip (fun kind h => by revert h; cases kind <;> decide) tokens

theorem placed_trivia (h : Placed cut place depth (kinds tokens)) :
    Placed cut place depth (kinds (trivia tokens).rest) := by
  rwa [← Symbol.map_kind_ofTokens, ofTokens_trivia_rest, Symbol.map_kind_ofTokens]

theorem fits_trivia (h : Placed cut place depth (kinds tokens)) :
    Fits cut place depth (trivia tokens) :=
  .inr ⟨mirrors_trivia tokens, placed_trivia h⟩

theorem fits_triviaFront (h : Placed cut place depth (kinds tokens))
    (ht : ∀ t ∈ (trivia tokens).rest.head?, t.kind.isLayout = true) :
    Fits cut .front depth (trivia tokens) :=
  .inr ⟨mirrors_trivia tokens, placed_front ht (placed_trivia h)⟩

/-- At the front of a line, blank lines are skipped up to the front of a line. -/
theorem placed_blank (h : Placed cut .front depth (kinds tokens)) :
    Placed cut .front depth (kinds (blank tokens).rest) := by
  unfold blank
  induction tokens with
  | nil => exact h
  | cons t ts ih =>
      rw [skip]
      split
      · rename_i ht
        refine ih ?_
        cases htrivia : t.kind.isTrivia with
        | true => rwa [kinds_trivia htrivia] at h
        | false =>
            have hkind : t.kind = .newline := by
              simpa [SyntaxKind.isSkipped, htrivia] using ht
            rw [kinds_cons htrivia, hkind] at h
            exact h
      · exact h

theorem isSkipped_of_rest_blank (h : (blank tokens).rest = t :: ts) :
    t.kind.isSkipped = false :=
  passes_of_rest_skip h

theorem isTrivia_of_rest_blank (h : (blank tokens).rest = t :: ts) :
    t.kind.isTrivia = false := by
  have hskipped := isSkipped_of_rest_blank h
  revert hskipped
  cases t.kind <;> decide

/-- Behind blank lines no line ends. -/
theorem isLayout_of_rest_blank (h : (blank tokens).rest = t :: ts) (hindent : t.kind ≠ .indent)
    (hdedent : t.kind ≠ .dedent) : t.kind.isLayout = false := by
  have hskipped := isSkipped_of_rest_blank h
  revert hskipped hindent hdedent
  cases t.kind <;> decide

/-- The next token behind blank lines. -/
theorem placed_of_rest_blank (h : Placed cut .front depth (kinds tokens))
    (hrest : (blank tokens).rest = t :: ts) :
    Placed cut .front depth (t.kind :: kinds ts) := by
  have hblank := placed_blank h
  rwa [hrest, kinds_cons (isTrivia_of_rest_blank hrest)] at hblank

theorem fits_blank (h : Placed cut .front depth (kinds tokens)) :
    Fits cut .front depth (blank tokens) :=
  .inr ⟨mirrors_blank tokens, placed_blank h⟩

theorem fits_lineEnd (h : Placed cut .front depth (kinds tokens)) :
    Fits cut .front depth (lineEnd tokens) := by
  cases tokens with
  | nil => exact .nothing h
  | cons t ts =>
      rw [lineEnd]
      split
      · rename_i ht
        rw [kinds_of_isLayout (by rw [ht]; rfl), ht] at h
        exact (Fits.nothing h.of_newline).withLeaf (by rw [ht]; rfl)
      · exact .nothing h

/-- What is set aside up to the next mark of layout leads to the front of a line. -/
theorem fits_errorFrom (ht : t.kind.isSynthetic = false)
    (h : Placed cut place depth (kinds tokens)) :
    Fits cut .front depth (errorFrom t tokens) := by
  refine Fits.wrapFrom (.inr ⟨mirrors_skip (fun kind hkind => ?_) tokens, ?_⟩) (by decide) ht
  · exact isSynthetic_of_isLayout (by simpa using hkind)
  · induction tokens generalizing place with
    | nil => exact placed_front (fun _ hfirst => by cases hfirst) h
    | cons t ts ih =>
        rw [skip]
        split
        · rename_i hlayout
          have hlayout : t.kind.isLayout = false := by simpa using hlayout
          cases htrivia : t.kind.isTrivia with
          | true =>
              rw [kinds_trivia htrivia] at h
              exact ih h
          | false =>
              rw [kinds_cons htrivia] at h
              obtain ⟨next, hnext, -⟩ := h.next hlayout
              exact ih hnext
        · rename_i hlayout
          have hlayout : t.kind.isLayout = true := by simpa using hlayout
          have hfirst : ∀ first ∈ (t :: ts).head?, first.kind.isLayout = true :=
            fun first hfirst => Option.some.inj hfirst ▸ hlayout
          exact placed_front hfirst h

/-- Within a line no block is opened, so none is set aside. -/
theorem fits_recoverLine (message : String) (h : Placed cut .within depth (kinds tokens)) :
    Fits cut .front depth (recoverLine stop message tokens) := by
  refine Fits.append (?_ : Fits cut .front depth _) fits_lineEnd
  cases tokens with
  | nil => exact (Fits.nothing h : Fits cut .front depth (Reading.nothing [])).wrap (by decide)
  | cons t ts =>
      change Fits cut .front depth (Reading.report message t.range
        (if t.kind = .dedent then (Reading.nothing (t :: ts)).wrap .error
          else if t.kind.isLayout then ((Reading.nothing ts).wrapFrom .error t).behind t
          else (errorFrom t ts).behind t))
      split
      · rename_i ht
        refine Fits.wrap (Fits.nothing (placed_front (fun first hfirst => ?_) h)) (by decide)
        rw [← Option.some.inj hfirst, ht]
        rfl
      · rename_i hdedent
        split
        · rename_i hlayout
          have hkinds := kinds_of_isLayout hlayout ts
          have hnewline : t.kind = .newline := by
            revert hlayout hdedent
            rw [hkinds] at h
            cases hkind : t.kind <;> simp [SyntaxKind.isLayout]
            · rw [hkind] at h
              exact h.not_indent
          rw [hkinds, hnewline] at h
          exact (Fits.nothing h.of_newline).wrapFrom (by decide) (by rw [hnewline]; rfl)
        · rename_i hlayout
          have hlayout : t.kind.isLayout = false := by simpa using hlayout
          exact fits_errorFrom (isSynthetic_of_isLayout hlayout) (placed_tail hlayout h)

theorem fits_nameTail (h : Placed cut .within depth (kinds tokens)) :
    Fits cut .within depth (nameTail stop tokens) := by
  fun_induction nameTail stop tokens with
  | case1 dot ident ts hdot hident ih =>
      have hbehind := placed_tail (by rw [hident]; rfl) (placed_tail (by rw [hdot]; rfl) h)
      exact ((ih hbehind).withLeaf (by rw [hident]; rfl)).withLeaf (by rw [hdot]; rfl)
  | case2 dot ident ts hdot =>
      have hbehind := placed_tail (by rw [hdot]; rfl) h
      exact (Fits.nothing hbehind).withLeaf (by rw [hdot]; rfl)
  | case4 dot hdot =>
      have hbehind := placed_tail (by rw [hdot]; rfl) h
      exact (Fits.nothing hbehind).withLeaf (by rw [hdot]; rfl)
  | case3 | case5 | case6 => exact .nothing h

theorem fits_scalar (ht : beginsValue t.kind = true)
    (h : Placed cut .within depth (kinds tokens)) :
    Fits cut .within depth (scalar stop t tokens) := by
  have hmark := isSynthetic_of_isLayout (isLayout_of_beginsValue ht)
  unfold scalar
  split
  · exact ((fits_nameTail h).wrapFrom (by decide) hmark).wrap (by decide)
  · exact (Fits.nothing h).wrapFrom (by decide) hmark

/-- The trees hold the end of a block in place of an element. -/
def TakesEnd {tokens : List Token} (r : Reading tokens) : Prop :=
  ∃ t ∈ r.trees, t.isStrayEnd = true

theorem fits_listElement (ht : t.kind ≠ .newline)
    (h : Placed cut .within depth (kinds (t :: ts))) :
    (cut = true ∧ TakesEnd (listElement stop t ts)) ∨
      Fits cut .within depth (listElement stop t ts) := by
  unfold listElement
  split
  · rename_i hbegins
    have hbegins := (Bool.and_eq_true_iff.mp hbegins).1
    exact .inr (fits_scalar hbegins (placed_tail (isLayout_of_beginsValue hbegins) h))
  · by_cases hlayout : t.kind.isLayout = true
    · -- of the marks of layout, none but the end of a block can stand here
      rw [kinds_of_isLayout hlayout] at h
      have hdedent : t.kind = .dedent := by
        revert hlayout
        cases hkind : t.kind <;> simp [SyntaxKind.isLayout]
        · exact ht hkind
        · rw [hkind] at h
          exact h.not_indent
      rw [hdedent] at h
      exact .inl ⟨h.cut_of_dedent, .node .error [.leaf t], List.mem_singleton_self _,
        beq_iff_eq.mpr hdedent⟩
    · have hlayout : t.kind.isLayout = false := by simpa using hlayout
      exact .inr ((Fits.nothing (placed_tail hlayout h)).wrapFrom (by decide)
        (isSynthetic_of_isLayout hlayout))

theorem fits_listElements (stop : Nat) (h : Placed cut .within depth (kinds tokens)) :
    (cut = true ∧ TakesEnd (listElements stop tokens)) ∨
      Fits cut .within depth (listElements stop tokens) := by
  fun_induction listElements stop tokens with
  | case1 | case2 => exact .inr (.nothing h)
  | case3 t ts hstop element spaced hrest =>
      rcases fits_listElement (fun ht => hstop (.inr ht)) h with ⟨hcut, e, hmem, he⟩ | helement
      · exact .inl ⟨hcut, e, List.mem_append_left _ hmem, he⟩
      · exact .inr (helement.append fits_trivia)
  | case4 t ts hstop element spaced comma more hrest hkind space hlt ih =>
      rcases fits_listElement (fun ht => hstop (.inr ht)) h with ⟨hcut, e, hmem, he⟩ | helement
      · exact .inl ⟨hcut, e, List.mem_append_left _ (List.mem_append_left _ hmem), he⟩
      · have hspaced : Fits cut .within depth spaced := helement.append fits_trivia
        rcases hspaced with ⟨hcut, tree, hmem, hover⟩ | ⟨hmirrors, hleft⟩
        · exact .inr (.inl ⟨hcut, tree, List.mem_append_left _ hmem, hover⟩)
        · rw [hrest] at hleft
          have hmore := placed_tail (by rw [hkind]; rfl) hleft
          rcases ih (placed_trivia hmore) with ⟨hcut, e, hmem, he⟩ | hothers
          · exact .inl ⟨hcut, e, List.mem_append_right _
              (List.mem_cons_of_mem _ (List.mem_append_right _ hmem)), he⟩
          · have hbehind := (fits_trivia hmore).append (fun _ => hothers)
            have hcomma : comma.kind.isSynthetic = false := by rw [hkind]; rfl
            exact .inr ((hbehind.withLeaf hcomma).followedBy hmirrors hrest)
  | case5 t ts hstop element spaced comma more hrest hkind =>
      rcases fits_listElement (fun ht => hstop (.inr ht)) h with ⟨hcut, e, hmem, he⟩ | helement
      · exact .inl ⟨hcut, e, List.mem_append_left _ hmem, he⟩
      · exact .inr (helement.append fits_trivia)

theorem fits_closingBracket (h : Placed cut .within depth (kinds tokens)) :
    Fits cut .within depth (closingBracket stop tokens) := by
  cases tokens with
  | nil => exact .nothing h
  | cons t ts =>
      rw [closingBracket]
      split
      · rename_i ht
        have hts := placed_tail (by rw [ht]; rfl) h
        exact (Fits.nothing hts).withLeaf (by rw [ht]; rfl)
      · exact .nothing h

theorem fits_value (ht : beginsValue t.kind = true)
    (h : Placed cut .within depth (kinds tokens)) :
    Fits cut .within depth (value stop t tokens) := by
  unfold value
  split
  · rename_i hbracket
    dsimp only
    have hopen : t.kind.isSynthetic = false := by rw [hbracket]; rfl
    rcases fits_listElements stop (placed_trivia h) with ⟨hcut, e, hmem, he⟩ | helements
    · -- the list has overrun
      refine .inl ⟨hcut, _, List.mem_singleton_self _, Tree.overruns_list ?_ he⟩
      exact List.mem_cons_of_mem _ (List.mem_append_left _ (List.mem_append_right _ hmem))
    · have hlist := (fits_trivia h).append (fun _ => helements)
      exact (hlist.append fits_closingBracket).wrapFrom (by decide) hopen
  · exact fits_scalar ht h

theorem fits_valueEnd (h : Placed cut .within depth (kinds tokens)) :
    Fits cut .front depth (valueEnd stop .never tokens).toReading := by
  have hspace := mirrors_trivia tokens
  have hrest := placed_trivia h
  cases hts : (trivia tokens).rest with
  | nil =>
      rw [valueEnd_nil hts]
      exact fits_triviaFront h (by simp [hts])
  | cons t ts =>
      rw [valueEnd_cons hts]
      rw [hts] at hrest
      split
      · rename_i ht
        rw [kinds_of_isLayout (by rw [ht]; rfl), ht] at hrest
        exact ((Fits.nothing hrest.of_newline).withLeaf (by rw [ht]; rfl)).followedBy hspace hts
      · split
        · rename_i ht
          refine fits_triviaFront h fun first hfirst => ?_
          rw [hts] at hfirst
          rw [← Option.some.inj hfirst, ht]
          rfl
        · split
          · rename_i ht
            rw [kinds_of_isLayout (by rw [ht]; rfl), ht] at hrest
            exact hrest.not_indent.elim
          · exact (fits_recoverLine _ hrest).followedBy hspace hts

/-- A value, and the end of its line. -/
theorem fits_valueLine (ht : beginsValue t.kind = true)
    (h : Placed cut .within depth (kinds (t :: ts))) :
    Fits cut .front depth ((value stop t ts).append
      (valueEnd stop .never (value stop t ts).rest).toReading) :=
  (fits_value ht (placed_tail (isLayout_of_beginsValue ht) h)).append fits_valueEnd

/-! ## Properties and blocks -/

/-- The rules on these tokens mirror the indentation, each at its place. -/
structure FitsAt (cut : Bool) (stop : Nat) (tokens : List Token) : Prop where
  propertyValue : ∀ {depth}, Placed cut .within depth (kinds tokens) →
    Fits cut .front depth (propertyValue stop .never tokens).toReading
  property : ∀ {depth} {key : Token}, key.kind.isSynthetic = false →
    Placed cut .within depth (kinds tokens) →
    Fits cut .front depth (property stop .never key tokens).toReading
  itemProperties : ∀ {depth}, Placed cut .front depth (kinds tokens) →
    Fits cut .front depth (itemProperties stop .never tokens).toReading
  listItem : ∀ {depth} {dash : Token}, dash.kind.isSynthetic = false →
    Placed cut .within depth (kinds tokens) →
    Fits cut .front depth (listItem stop .never dash tokens).toReading
  members : ∀ {depth}, Placed cut .front (depth + 1) (kinds tokens) →
    FitsBlock cut depth (members stop .never tokens).toReading

section Step

variable (ih : ∀ shorter, shorter.length < tokens.length → FitsAt cut stop shorter)

include ih

theorem FitsAt.propertyValue_of (h : Placed cut .within depth (kinds tokens)) :
    Fits cut .front depth (Grammar.propertyValue stop .never tokens).toReading := by
  have hspace := mirrors_trivia tokens
  have hrest := placed_trivia h
  cases hts : (trivia tokens).rest with
  | nil =>
      rw [propertyValue_nil hts]
      exact fits_triviaFront h (by simp [hts])
  | cons t ts =>
      have hlt := length_lt_of_rest hts
      rw [hts] at hrest
      by_cases ht : t.kind = .newline
      · have hmark : t.kind.isSynthetic = false := by rw [ht]; rfl
        rw [kinds_of_isLayout (by rw [ht]; rfl), ht] at hrest
        rcases next_cases .indent (blank ts).rest with ⟨first, more, hmore, hfirst⟩ | hother
        · have hblock := placed_of_rest_blank hrest.of_newline hmore
          rw [hfirst] at hblock
          have hnested := (ih more (by have := length_lt_of_rest hmore; omega)).members
            hblock.of_indent
          rw [propertyValue_block hts ht hmore hfirst]
          refine Fits.followedBy hspace hts (Fits.withLeaf ?_ hmark)
          exact Fits.followedBy (mirrors_blank ts) hmore (hnested.wrapFrom hfirst)
        · rw [propertyValue_newline hts ht hother]
          exact ((fits_blank hrest.of_newline).withLeaf hmark).followedBy hspace hts
      · rw [propertyValue_inline hts ht]
        split
        · rename_i hbegins
          exact (fits_valueLine hbegins hrest).followedBy hspace hts
        · exact (fits_recoverLine _ hrest).followedBy hspace hts

theorem FitsAt.property_of {key : Token} (hkey : key.kind.isSynthetic = false)
    (h : Placed cut .within depth (kinds tokens)) :
    Fits cut .front depth (Grammar.property stop .never key tokens).toReading := by
  have hspace := mirrors_trivia tokens
  have hrest := placed_trivia h
  rcases next_cases .colon (trivia tokens).rest with ⟨colon, more, hmore, hcolon⟩ | hother
  · rw [hmore] at hrest
    rw [property_colon key hmore hcolon]
    have hvalue := (ih more (length_lt_of_rest hmore)).propertyValue
      (placed_tail (by rw [hcolon]; rfl) hrest)
    have hline := (hvalue.withLeaf (by rw [hcolon]; rfl)).followedBy hspace hmore
    exact hline.wrapFrom (by decide) hkey
  · rw [property_other key rfl hother]
    exact ((fits_recoverLine _ hrest).followedBy hspace rfl).wrapFrom (by decide) hkey

theorem FitsAt.properties_of (hlt : ts.length < tokens.length) (ht : t.kind = .ident)
    (h : Placed cut .within depth (kinds ts)) :
    Fits cut .front depth (properties stop t ts) := by
  have hle := (Grammar.property stop .never t ts).rest_length_le
  refine Fits.append ((ih ts hlt).property (by rw [ht]; rfl) h) ?_
  exact (ih _ (by omega)).itemProperties

theorem FitsAt.itemProperties_of (h : Placed cut .front depth (kinds tokens)) :
    Fits cut .front depth (Grammar.itemProperties stop .never tokens).toReading := by
  rcases next_cases .ident (blank tokens).rest with ⟨t, ts, hts, ht⟩ | hother
  · have hline := placed_of_rest_blank h hts
    rw [ht] at hline
    rw [itemProperties_ident hts ht]
    exact (FitsAt.properties_of ih (length_lt_of_rest hts) ht hline).followedBy
      (mirrors_blank tokens) hts
  · rw [itemProperties_other hother]
    exact fits_blank h

theorem FitsAt.listItem_of {dash : Token} (hdash : dash.kind.isSynthetic = false)
    (h : Placed cut .within depth (kinds tokens)) :
    Fits cut .front depth (Grammar.listItem stop .never dash tokens).toReading := by
  have hspace := mirrors_trivia tokens
  have hrest := placed_trivia h
  cases hts : (trivia tokens).rest with
  | nil =>
      rw [listItem_nil dash hts]
      exact (fits_triviaFront h (by simp [hts])).wrapFrom (by decide) hdash
  | cons t ts =>
      rw [listItem_cons dash hts]
      rw [hts] at hrest
      refine Fits.wrapFrom (Fits.followedBy hspace hts ?_) (by decide) hdash
      split
      · rename_i hkey
        exact FitsAt.properties_of ih (length_lt_of_rest hts) hkey.1
          (placed_tail (by rw [hkey.1]; rfl) hrest)
      · split
        · rename_i hbegins
          exact fits_valueLine hbegins hrest
        · split
          · rename_i ht
            rw [kinds_of_isLayout (by rw [ht]; rfl), ht] at hrest
            exact (Fits.nothing hrest.of_newline).withLeaf (by rw [ht]; rfl)
          · exact fits_recoverLine _ hrest

end Step

/-- What stands first behind blank lines, no mark of layout, is set aside with its line. -/
theorem fits_unexpectedLine (h : Placed cut .front depth (kinds tokens))
    (hts : (blank tokens).rest = t :: ts) (hindent : t.kind ≠ .indent)
    (hdedent : t.kind ≠ .dedent) : Fits cut .front depth (errorFrom t ts) := by
  have hlayout := isLayout_of_rest_blank hts hindent hdedent
  obtain ⟨next, hnext, -⟩ := (placed_of_rest_blank h hts).next hlayout
  exact fits_errorFrom (isSynthetic_of_isLayout hlayout) hnext

/-- One member of a block that is not closed by it. -/
theorem FitsAt.member (hat : FitsAt cut stop ts) (h : Placed cut .front depth (kinds tokens))
    (hts : (blank tokens).rest = t :: ts) (hdedent : t.kind ≠ .dedent) :
    Fits cut .front depth (Grammar.member stop t ts) := by
  have hline := placed_of_rest_blank h hts
  unfold Grammar.member
  split
  · rename_i ht
    rw [ht] at hline
    exact hat.property (by rw [ht]; rfl) hline
  · split
    · rename_i ht
      rw [ht] at hline
      exact hat.listItem (by rw [ht]; rfl) hline
    · split
      · rename_i ht
        rw [ht] at hline
        exact ((hat.members hline.of_indent).wrapFrom ht).wrap (by decide)
      · rename_i hindent
        exact fits_unexpectedLine h hts hindent hdedent

theorem FitsAt.members_of (ih : ∀ shorter, shorter.length < tokens.length →
    FitsAt cut stop shorter) (h : Placed cut .front (depth + 1) (kinds tokens)) :
    FitsBlock cut depth (Grammar.members stop .never tokens).toReading := by
  have hspace := mirrors_blank tokens
  cases hts : (blank tokens).rest with
  | nil =>
      have hrest := placed_blank h
      rw [hts] at hrest
      cases hrest
  | cons t ts =>
      have hlt := length_lt_of_rest hts
      by_cases ht : t.kind = .dedent
      · have hline := placed_of_rest_blank h hts
        rw [ht] at hline
        rw [members_dedent hts ht]
        exact .inr ⟨(blank tokens).trees, t, rfl, ht, hspace, hline.of_dedent⟩
      · rw [members_cons hts ht]
        refine FitsBlock.followedBy hspace hts ?_
        have hmember := (ih ts hlt).member h hts ht
        exact hmember.appendBlock
          (ih _ (Nat.lt_of_le_of_lt (Grammar.member stop t ts).rest_length_le hlt)).members

theorem fitsAt (cut : Bool) (stop : Nat) (tokens : List Token) : FitsAt cut stop tokens := by
  induction tokens using rules_induction with
  | step tokens ih =>
      exact ⟨FitsAt.propertyValue_of ih, FitsAt.property_of ih, FitsAt.itemProperties_of ih,
        FitsAt.listItem_of ih, FitsAt.members_of ih⟩

/-! ## Files -/

theorem fits_fileMember (roots : Nat) (h : Placed cut .front 0 (kinds tokens))
    (hts : (blank tokens).rest = t :: ts) : Fits cut .front 0 (fileMember stop roots t ts) := by
  have hat := fitsAt cut stop ts
  have hline := placed_of_rest_blank h hts
  unfold fileMember
  split
  · rename_i ht
    rw [ht] at hline
    have hkey : t.kind.isSynthetic = false := by rw [ht]; rfl
    have hroot := hat.property hkey hline
    split
    · exact hroot
    · exact hroot
  · split
    · rename_i ht
      rw [ht] at hline
      exact ((hat.members hline.of_indent).wrapFrom ht).wrap (by decide)
    · rename_i hindent
      split
      · rename_i ht
        rw [ht] at hline
        exact hline.not_dedent.elim
      · rename_i hdedent
        exact fits_unexpectedLine h hts hindent hdedent

theorem fits_fileMembers (stop roots : Nat) (h : Placed cut .front 0 (kinds tokens)) :
    Fits cut .front 0 (fileMembers stop .never roots tokens).toReading := by
  induction tokens using rules_induction generalizing roots with
  | step tokens ih =>
      cases hts : (blank tokens).rest with
      | nil =>
          rw [fileMembers_nil roots hts]
          exact fits_blank h
      | cons t ts =>
          have hlt := Nat.lt_of_le_of_lt (fileMember stop roots t ts).rest_length_le
            (length_lt_of_rest hts)
          rw [fileMembers_cons roots hts]
          refine Fits.followedBy (mirrors_blank tokens) hts ?_
          exact (fits_fileMember roots h hts).append (ih _ hlt _)

end Grammar

/-! ## Blocks and brackets -/

/-- The pairs of places at which a mark opens a block and the matching one closes it, in the
order in which the blocks are closed.  The first token has the number `place`, and `opened`
are the places of the open blocks, innermost first. -/
def Nesting.brackets (place : Nat) (opened : List Nat) : List Token → List (Nat × Nat)
  | [] => []
  | t :: ts =>
    if t.kind = .indent then brackets (place + 1) (place :: opened) ts
    else if t.kind = .dedent then
      match opened with
      | [] => brackets (place + 1) [] ts
      | first :: outer => (first, place) :: brackets (place + 1) outer ts
    else brackets (place + 1) opened ts

section Brackets

variable {place : Nat} {opened : List Nat} {t : Token} {ts : List Token}

theorem Nesting.brackets_indent (ht : t.kind = .indent) :
    brackets place opened (t :: ts) = brackets (place + 1) (place :: opened) ts := by
  simp [brackets, ht]

theorem Nesting.brackets_dedent {first : Nat} (ht : t.kind = .dedent) :
    brackets place (first :: opened) (t :: ts) =
      (first, place) :: brackets (place + 1) opened ts := by
  simp [brackets, ht]

theorem Nesting.brackets_plain (ht : t.kind.isSynthetic = false) :
    brackets place opened (t :: ts) = brackets (place + 1) opened ts := by
  have hindent : t.kind ≠ .indent := fun hkind => by rw [hkind] at ht; cases ht
  have hdedent : t.kind ≠ .dedent := fun hkind => by rw [hkind] at ht; cases ht
  simp [brackets, hindent, hdedent]

end Brackets

namespace Tree

mutual

/-- The places of the first and the last leaf of each block of a tree, an inner block before
the ones around it.  The first leaf of the tree has the number `place`. -/
def blockSpans (place : Nat) : Tree → List (Nat × Nat)
  | .leaf _ => []
  | .node kind children =>
    allBlockSpans place children ++
      if kind = .block then [(place, place + (allLeaves children).length - 1)] else []
termination_by structural t => t

/-- The same for several trees. -/
def allBlockSpans (place : Nat) : List Tree → List (Nat × Nat)
  | [] => []
  | t :: ts => t.blockSpans place ++ allBlockSpans (place + t.leaves.length) ts
termination_by structural ts => ts

end

/-- The blocks of the tree are the brackets among its leaves. -/
def MatchesBrackets (t : Tree) : Prop :=
  ∀ place opened more, Nesting.brackets place opened (t.leaves ++ more) =
    t.blockSpans place ++ Nesting.brackets (place + t.leaves.length) opened more

theorem matchesBrackets_all {ts : List Tree} (h : ∀ t ∈ ts, t.MatchesBrackets)
    (place : Nat) (opened : List Nat) (more : List Token) :
    Nesting.brackets place opened (allLeaves ts ++ more) =
      allBlockSpans place ts ++
        Nesting.brackets (place + (allLeaves ts).length) opened more := by
  induction ts generalizing place with
  | nil => rfl
  | cons t ts ih =>
      obtain ⟨ht, hts⟩ := List.forall_mem_cons.mp h
      rw [allLeaves, List.append_assoc, ht, ih hts, allBlockSpans, List.append_assoc,
        List.length_append, Nat.add_assoc]

theorem allBlockSpans_append (place : Nat) (ts us : List Tree) :
    allBlockSpans place (ts ++ us) =
      allBlockSpans place ts ++ allBlockSpans (place + (allLeaves ts).length) us := by
  induction ts generalizing place with
  | nil => rfl
  | cons t ts ih =>
      rw [List.cons_append, allBlockSpans, ih, allBlockSpans, allLeaves, List.length_append,
        List.append_assoc, Nat.add_assoc]

/-- In a tree that mirrors the indentation the marks around each block belong together. -/
theorem Mirrors.matchesBrackets {t : Tree} (h : t.Mirrors) : t.MatchesBrackets := by
  induction h with
  | leaf plain =>
      intro place opened more
      exact Nesting.brackets_plain plain
  | block opens closes nested ih =>
      rename_i first last inside
      intro place opened more
      have hinside := matchesBrackets_all ih (place + 1) (place :: opened) (last :: more)
      have hleaves : allLeaves (.leaf first :: (inside ++ [.leaf last])) =
          first :: (allLeaves inside ++ [last]) := by
        simp [allLeaves, leaves]
      have hspans : blockSpans place (.node .block (.leaf first :: (inside ++ [.leaf last]))) =
          allBlockSpans (place + 1) inside ++
            [(place, place + 1 + (allLeaves inside).length)] := by
        rw [blockSpans, if_pos rfl, hleaves, allBlockSpans, allBlockSpans_append]
        simp only [blockSpans, allBlockSpans, leaves, List.length_cons, List.length_append,
          List.length_nil, List.append_nil, List.nil_append, List.cons.injEq, Prod.mk.injEq,
          true_and, and_true, List.append_cancel_left_eq]
        omega
      have hlength : place + (first :: (allLeaves inside ++ [last])).length =
          place + 1 + (allLeaves inside).length + 1 := by
        simp only [List.length_cons, List.length_append, List.length_nil]
        omega
      rw [Nesting.brackets_dedent closes] at hinside
      rw [hspans, leaves, hleaves, hlength, List.cons_append, Nesting.brackets_indent opens,
        List.append_assoc, List.singleton_append, hinside, List.append_assoc]
      rfl
  | node other nested ih =>
      intro place opened more
      rw [leaves, blockSpans, if_neg other, List.append_nil]
      exact matchesBrackets_all ih place opened more

end Tree

/-- Whatever the text is, its tree mirrors the indentation: unless an inline list holds the
end of a block in place of an element, and only then not, each mark that opens a block is the
first leaf of a block node, the matching one is the last leaf that the node itself holds, and
no mark stands elsewhere.  An inline list can do so only if the last line has no end. -/
theorem Parse.mirrors_iff (text : String) :
    let parse := Parse.ofText false text
    (parse.tree.Mirrors ∧
        parse.tree.blockSpans 0 = Nesting.brackets 0 [] parse.tokens ↔
      parse.tree.overruns = false) ∧
    (parse.tree.overruns = true → ∃ c ∈ text.toList.getLast?, c ≠ '\n') := by
  intro parse
  have hfits : ∀ cut : Bool,
      (cut = true ∨ text.toList = [] ∨ text.toList.getLast? = some '\n') →
        (cut = true ∧ parse.tree.overruns = true) ∨ parse.tree.Mirrors := by
    intro cut hcut
    rcases Grammar.fits_fileMembers (byteWidth text.toList) 0 (placed_tokenize hcut)
      with ⟨hcut, t, ht, hover⟩ | ⟨hmirrors, -⟩
    · exact .inl ⟨hcut, Tree.overruns_of_mem .sourceFile ht hover⟩
    · exact .inr (.node (by decide) hmirrors)
  refine ⟨⟨fun h => h.1.overruns_eq, fun hover => ?_⟩, fun hover => ?_⟩
  · have hmirrors : parse.tree.Mirrors := by
      rcases hfits true (.inl rfl) with ⟨-, h⟩ | h
      · rw [hover] at h
        cases h
      · exact h
    have hleaves : parse.tree.leaves = parse.tokens := leaves_underSignal .never false text
    have hspans := hmirrors.matchesBrackets 0 [] []
    rw [List.append_nil, hleaves, Nesting.brackets, List.append_nil] at hspans
    exact ⟨hmirrors, hspans.symm⟩
  · by_contra hend
    have hcut : text.toList = [] ∨ text.toList.getLast? = some '\n' := by
      cases hlast : text.toList.getLast? with
      | none => exact .inl (List.getLast?_eq_none_iff.mp hlast)
      | some c =>
          rw [hlast] at hend
          by_cases hc : c = '\n'
          · exact .inr (by rw [hc])
          · exact absurd ⟨c, rfl, hc⟩ hend
    rcases hfits false (.inr hcut) with ⟨h, -⟩ | h
    · cases h
    · rw [h.overruns_eq] at hover
      cases hover

/-- A text that is cut off behind the bracket that opens a list: the end of the block around
the property becomes an element of the list. -/
theorem Parse.list_may_overrun : ¬ (Parse.ofText false "a:\n  b: [").tree.Mirrors := by
  intro h
  have hover : (Parse.ofText false "a:\n  b: [").tree.overruns = true := by decide +kernel
  rw [h.overruns_eq] at hover
  cases hover

end ModelWorkspace
