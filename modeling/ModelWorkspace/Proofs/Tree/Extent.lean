import ModelWorkspace.Proofs.Tree.Lossless

/-!
# Ranges lie in the text

Every range that comes out of a parse is one of the text: it does not end before it starts,
and not behind the last byte.  `TextRange.Within limit` says this of one range.

Tokens tile the text, and a report of the grammar is about a token or the end of the text
(`Closed`).  Where a node stands follows from the widths in front of it, so the ranges of an
outline follow from the widths of the tree.  There are no more scalars than bytes, because
every scalar takes some text (`Tree.Solid`); this bounds the numbers that references get.
-/

namespace ModelWorkspace

/-- The range does not end before it starts, and not behind a limit. -/
structure TextRange.Within (limit : Nat) (range : TextRange) : Prop where
  ordered : range.start ≤ range.stop
  bounded : range.stop ≤ limit

theorem TextRange.within_ofWidth {start width limit : Nat} (h : start + width ≤ limit) :
    (TextRange.ofWidth start width).Within limit :=
  ⟨Nat.le_add_right start width, h⟩

theorem TextRange.Within.mono {range : TextRange} {limit larger : Nat}
    (h : range.Within limit) (hle : limit ≤ larger) : range.Within larger :=
  ⟨h.ordered, Nat.le_trans h.bounded hle⟩

/-! ## Tokens -/

theorem Tiles.within {offset : Nat} {chars : List Char} {tokens : List Token}
    (h : Tiles offset chars tokens) {t : Token} (ht : t ∈ tokens) :
    t.range.Within (offset + byteWidth chars) := by
  induction h with
  | nil => cases ht
  | cons first rest ih =>
      rw [byteWidth_append, ← Nat.add_assoc]
      rcases List.mem_cons.mp ht with rfl | ht
      · exact TextRange.within_ofWidth (Nat.le_add_right _ _)
      · exact ih ht

theorem Tiles.sum_width {offset : Nat} {chars : List Char} {tokens : List Token}
    (h : Tiles offset chars tokens) : (tokens.map Token.width).sum = byteWidth chars := by
  induction h with
  | nil => rfl
  | cons first rest ih => rw [List.map_cons, List.sum_cons, ih, byteWidth_append, Token.width]

namespace Layout

theorem byteWidth_content_le (line : List Char) :
    byteWidth (content line) ≤ byteWidth line := by
  obtain ⟨behind, hbehind⟩ := content_isPrefix line
  have hwidth := congrArg byteWidth hbehind
  rw [byteWidth_append] at hwidth
  omega

theorem within_of_mem_shift {stack : IndentStack} {column anchor limit : Nat}
    {range : TextRange} {e : LexError} (h : range.Within limit)
    (he : e ∈ (shift stack column anchor range).errors) : e.range.Within limit := by
  unfold shift at he
  split at he
  · cases he
  · split at he
    · split at he
      · cases he
      · rw [List.mem_singleton.mp he]
        exact h
    · cases he

theorem within_of_mem_line {offset : Nat} {stack : IndentStack} {chars : List Char}
    {e : LexError} (he : e ∈ (line offset stack chars).2.2) :
    e.range.Within (offset + byteWidth chars) := by
  have hcontent : (TextRange.ofWidth offset (byteWidth (content chars))).Within
      (offset + byteWidth chars) :=
    TextRange.within_ofWidth (Nat.add_le_add_left (byteWidth_content_le chars) offset)
  unfold line at he
  extract_lets content blanks rest anchor shift at he
  split at he
  · cases he
  · exact within_of_mem_shift hcontent he

theorem within_of_mem_lines {offset : Nat} {stack : IndentStack} {rows : List (List Char)}
    {e : LexError} (he : e ∈ (lines offset stack rows).1.errors) :
    e.range.Within (offset + byteWidth rows.flatten) := by
  induction rows generalizing offset stack with
  | nil => cases he
  | cons chars rows ih =>
      rw [lines] at he
      rw [List.flatten_cons, byteWidth_append, ← Nat.add_assoc]
      rcases List.mem_append.mp he with he | he
      · exact (within_of_mem_line he).mono (Nat.le_add_right _ _)
      · exact ih he

end Layout

theorem within_of_mem_tokenize {completion : Bool} {text : String} {t : Token}
    (ht : t ∈ (tokenize completion text).tokens) :
    t.range.Within (byteWidth text.toList) := by
  have hwithin := (tiles_tokenize completion text).within ht
  rwa [Nat.zero_add] at hwithin

theorem within_of_mem_lexErrors {completion : Bool} {text : String} {e : LexError}
    (he : e ∈ (tokenize completion text).errors) : e.range.Within (byteWidth text.toList) := by
  have hwithin : e.range.Within (0 + byteWidth (Layout.splitLines text.toList).flatten) :=
    Layout.within_of_mem_lines he
  rwa [Nat.zero_add, Layout.flatten_splitLines] at hwithin

/-- A token that is no mark of layout takes some text. -/
theorem Token.EmptyIffMark.width_pos {t : Token} (h : t.EmptyIffMark)
    (hkind : t.kind.isSynthetic = false) : 0 < t.width := by
  have hchars : t.chars ≠ [] := fun hempty => by
    rw [h.mp hempty] at hkind
    cases hkind
  obtain ⟨c, cs, hcs⟩ := List.exists_cons_of_ne_nil hchars
  rw [Token.width, hcs, byteWidth_cons]
  exact Nat.add_pos_left c.utf8Size_pos _

theorem Grammar.isSynthetic_of_beginsValue {kind : SyntaxKind} (h : beginsValue kind = true) :
    kind.isSynthetic = false := by
  cases kind <;> first | rfl | cases h

/-- A token that a value can begin with takes some text. -/
theorem width_pos_of_beginsValue {completion : Bool} {text : String} {t : Token}
    (ht : t ∈ (tokenize completion text).tokens) (hkind : Grammar.beginsValue t.kind = true) :
    0 < t.width :=
  (emptyIffMark_tokenize ht).width_pos (Grammar.isSynthetic_of_beginsValue hkind)

/-! ## Trees -/

namespace Tree

mutual

/-- A tree is as wide as its tokens are. -/
theorem width_eq_sum : (t : Tree) → t.width = (t.leaves.map Token.width).sum
  | .leaf token => by simp [width, leaves]
  | .node _ children => totalWidth_eq_sum children

theorem totalWidth_eq_sum : (ts : List Tree) →
    totalWidth ts = ((allLeaves ts).map Token.width).sum
  | [] => rfl
  | t :: ts => by
      rw [totalWidth, allLeaves, List.map_append, List.sum_append, width_eq_sum t,
        totalWidth_eq_sum ts]

end

/-- Every scalar in a tree takes some text. -/
inductive Solid : Tree → Prop
  | leaf (t : Token) : Solid (.leaf t)
  | node {kind : SyntaxKind} {children : List Tree}
      (filled : kind = .scalar → 0 < totalWidth children)
      (nested : ∀ t ∈ children, Solid t) : Solid (.node kind children)

theorem width_le_totalWidth {first : Token} {ts : List Tree}
    (h : (allLeaves ts).head? = some first) : first.width ≤ totalWidth ts := by
  obtain ⟨others, hleaves⟩ := List.head?_eq_some_iff.mp h
  rw [totalWidth_eq_sum, hleaves, List.map_cons, List.sum_cons]
  exact Nat.le_add_right _ _

end Tree

namespace Grammar

/-- If the tokens lie in a text, and those that begin a value take some of it, then reports
lie in the text and scalars take some of it. -/
theorem closed_within (limit : Nat) :
    Closed limit fun trees errors rest all =>
      (∀ t ∈ all, t.range.Within limit ∧ (beginsValue t.kind = true → 0 < t.width)) →
        (∀ tree ∈ trees, tree.Solid) ∧ (∀ e ∈ errors, e.range.Within limit) ∧
          ∀ t ∈ rest, t ∈ all where
  start := by
    intro tokens _
    exact ⟨List.forall_mem_nil _, List.forall_mem_nil _, fun _ ht => ht⟩
  leaf := by
    intro trees errors rest all h t htokens
    obtain ⟨hsolid, herrors, hrest⟩ := h fun s hs => htokens s (List.mem_cons_of_mem t hs)
    exact ⟨List.forall_mem_cons.mpr ⟨.leaf t, hsolid⟩, herrors,
      fun s hs => List.mem_cons_of_mem t (hrest s hs)⟩
  join := by
    intro trees errors rest all others later left h hothers htokens
    obtain ⟨hsolid, herrors, hrest⟩ := h htokens
    obtain ⟨hsolid', herrors', hleft⟩ := hothers fun t ht => htokens t (hrest t ht)
    exact ⟨List.forall_mem_append.mpr ⟨hsolid, hsolid'⟩,
      List.forall_mem_append.mpr ⟨herrors, herrors'⟩, fun t ht => hrest t (hleft t ht)⟩
  node := by
    intro trees errors rest all kind h hkind htokens
    obtain ⟨hsolid, herrors, hrest⟩ := h htokens
    exact ⟨List.forall_mem_singleton.mpr (.node (fun heq => absurd heq hkind) hsolid), herrors,
      hrest⟩
  scalar := by
    intro trees errors rest all first h hbegins hfirst htokens
    obtain ⟨hsolid, herrors, hrest⟩ := h htokens
    have hpos := (htokens first List.mem_cons_self).2 hbegins
    have hfilled : 0 < Tree.totalWidth trees :=
      Nat.lt_of_lt_of_le hpos (Tree.width_le_totalWidth hfirst)
    exact ⟨List.forall_mem_singleton.mpr (.node (fun _ => hfilled) hsolid), herrors, hrest⟩
  report := by
    intro trees errors rest all h message range hrange htokens
    obtain ⟨hsolid, herrors, hrest⟩ := h htokens
    have hwithin : range.Within limit := by
      rcases hrange with rfl | ⟨t, ht, rfl⟩
      · exact ⟨Nat.le_refl _, Nat.le_refl _⟩
      · exact (htokens t ht).1
    exact ⟨hsolid, List.forall_mem_cons.mpr ⟨hwithin, herrors⟩, hrest⟩

end Grammar

end ModelWorkspace
