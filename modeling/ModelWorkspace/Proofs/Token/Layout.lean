import Mathlib
import ModelWorkspace.Token.Layout

/-!
# Tokens tile the text

`Tiles offset chars tokens` says that the tokens spell `chars` from `offset` on: each of
them stands where the text before it ends, and nothing of the text is left out or taken
twice.  Lines are scanned one by one behind their blanks, with marks of layout between;
since the marks take no text, every line is tiled, and so is the whole text.
-/

namespace ModelWorkspace

/-- The tokens spell the characters, the first of which stands at `offset`. -/
inductive Tiles : (offset : Nat) → List Char → List Token → Prop
  | nil (offset : Nat) : Tiles offset [] []
  | cons (t : Token) {chars : List Char} {ts : List Token}
      (rest : Tiles (t.offset + t.width) chars ts) :
      Tiles t.offset (t.chars ++ chars) (t :: ts)

namespace Tiles

variable {offset : Nat} {chars more : List Char} {tokens others : List Token}

theorem flatMap_chars (h : Tiles offset chars tokens) :
    tokens.flatMap Token.chars = chars := by
  induction h with
  | nil => rfl
  | cons t _ ih => rw [List.flatMap_cons, ih]

theorem append (h : Tiles offset chars tokens)
    (hmore : Tiles (offset + byteWidth chars) more others) :
    Tiles offset (chars ++ more) (tokens ++ others) := by
  induction h with
  | nil => simpa using hmore
  | cons t _ ih =>
      rw [byteWidth_append, ← Nat.add_assoc] at hmore
      rw [List.append_assoc]
      exact cons t (ih hmore)

/-- A token stands where the tokens before it end. -/
theorem offset_eq {before after : List Token} {t : Token}
    (h : Tiles offset chars (before ++ t :: after)) :
    t.offset = offset + (before.map Token.width).sum := by
  induction before generalizing offset chars with
  | nil => cases h with | cons => rfl
  | cons b before ih =>
      cases h with
      | cons _ rest =>
          have hbehind := ih rest
          simp only [List.map_cons, List.sum_cons]
          omega

/-- Other kinds do not move a token. -/
theorem map {f : Token → Token} (h : Tiles offset chars tokens)
    (hchars : ∀ t, (f t).chars = t.chars) (hoffset : ∀ t, (f t).offset = t.offset) :
    Tiles offset chars (tokens.map f) := by
  induction h with
  | nil => exact nil _
  | @cons t chars ts _ ih =>
      have hwidth : (f t).width = t.width := by simp only [Token.width, hchars]
      have hrest : Tiles ((f t).offset + (f t).width) chars (ts.map f) := by
        rw [hoffset, hwidth]
        exact ih
      have hf := cons (f t) hrest
      rwa [hchars, hoffset] at hf

/-- Marks of layout take no text. -/
theorem marks (count : Nat) (kind : SyntaxKind) (offset : Nat) :
    Tiles offset [] (List.replicate count (Layout.mark kind offset)) := by
  induction count with
  | zero => exact nil offset
  | succ count ih => exact cons (Layout.mark kind offset) ih

end Tiles

/-- A token takes no text if and only if it is a mark of layout. -/
def Token.EmptyIffMark (t : Token) : Prop :=
  t.chars = [] ↔ t.kind.isSynthetic = true

namespace Scan

theorem tiles_scan (offset : Nat) (cs : List Char) : Tiles offset cs (scan offset cs) := by
  fun_induction scan offset cs with
  | case1 offset => exact .nil offset
  | case2 offset c cs kind more _ token ih =>
      have hsplit : c :: cs = token.chars ++ cs.drop more := by simp [token]
      rw [hsplit]
      exact .cons token ih

theorem isSynthetic_lexeme (c : Char) (cs : List Char) :
    (lexeme c cs).1.isSynthetic = false := by
  fun_cases lexeme c cs <;> rfl

/-- The scanner knows no marks of layout. -/
theorem of_mem_scan {offset : Nat} {cs : List Char} {t : Token} (h : t ∈ scan offset cs) :
    t.chars ≠ [] ∧ t.kind.isSynthetic = false := by
  fun_induction scan offset cs with
  | case1 => cases h
  | case2 offset c cs kind more hlexeme token ih =>
      obtain rfl | h := List.mem_cons.mp h
      · have hkind := isSynthetic_lexeme c cs
        rw [hlexeme] at hkind
        exact ⟨by simp [token], hkind⟩
      · exact ih h

theorem emptyIffMark_scan {offset : Nat} {cs : List Char} {t : Token}
    (h : t ∈ scan offset cs) : t.EmptyIffMark := by
  obtain ⟨hchars, hkind⟩ := of_mem_scan h
  simp [Token.EmptyIffMark, hchars, hkind]

end Scan

namespace Layout

theorem flatten_splitLines (cs : List Char) : (splitLines cs).flatten = cs := by
  induction cs with
  | nil => rfl
  | cons c cs ih =>
      rw [splitLines]
      split
      · simp [ih]
      · split
        · rename_i hlines
          simp [hlines] at ih
          simp [← ih]
        · rename_i hlines
          simp [hlines] at ih
          simp [← ih]

theorem content_isPrefix (line : List Char) : content line <+: line := by
  have hsuffix := List.dropWhile_suffix (l := line.reverse) isLineEnd
  rw [content, ← List.reverse_suffix, List.reverse_reverse]
  exact hsuffix

/-- The blanks that indent a line stand at its front. -/
theorem blanks_isPrefix (line : List Char) :
    (content line).takeWhile Scan.isBlank <+: line :=
  (List.takeWhile_prefix _).trans (content_isPrefix line)

theorem tiles_leadingBlanks (offset : Nat) (blanks : List Char) :
    Tiles offset blanks (leadingBlanks offset blanks) := by
  rw [leadingBlanks]
  split
  · rename_i h
    rw [h]
    exact .nil offset
  · simpa using Tiles.cons ⟨.whitespace, blanks, offset⟩ (.nil _)

theorem shift_marks (stack : IndentStack) (column anchor : Nat) (range : TextRange) :
    ∃ count kind, kind.isSynthetic = true ∧
      (shift stack column anchor range).marks = List.replicate count (mark kind anchor) := by
  unfold shift
  split
  · exact ⟨1, .indent, rfl, rfl⟩
  · split
    · split
      · exact ⟨_, .dedent, rfl, rfl⟩
      · exact ⟨0, .indent, rfl, rfl⟩
    · exact ⟨0, .indent, rfl, rfl⟩

theorem emptyIffMark_mark {kind : SyntaxKind} (h : kind.isSynthetic = true) (offset : Nat) :
    (mark kind offset).EmptyIffMark := by
  simp [Token.EmptyIffMark, mark, h]

theorem tiles_line (offset : Nat) (stack : IndentStack) (chars : List Char) :
    Tiles offset chars (line offset stack chars).1 := by
  unfold line
  extract_lets content blanks rest anchor shift
  split
  · exact (Scan.tiles_scan offset chars).map (fun t => by split <;> rfl)
      (fun t => by split <;> rfl)
  · -- the blanks, then marks, then the rest of the line scanned
    obtain ⟨count, kind, -, hmarks⟩ := shift_marks stack
      (blanks.length + markerWidth rest) anchor (TextRange.ofWidth offset (byteWidth content))
    obtain ⟨behind, hbehind⟩ := blanks_isPrefix chars
    have hdrop : chars.drop blanks.length = behind := by
      rw [← hbehind, List.drop_left]
    have hfront := (tiles_leadingBlanks offset blanks).append
      (Tiles.marks count kind (offset + byteWidth blanks))
    have hscan := Scan.tiles_scan anchor behind
    dsimp only
    rw [hdrop, show shift.marks = _ from hmarks, ← hbehind]
    simpa using hfront.append (by simpa using hscan)

theorem emptyIffMark_line {offset : Nat} {stack : IndentStack} {chars : List Char} {t : Token}
    (h : t ∈ (line offset stack chars).1) : t.EmptyIffMark := by
  unfold line at h
  extract_lets content blanks rest anchor shift at h
  split at h
  · obtain ⟨scanned, hscanned, rfl⟩ := List.mem_map.mp h
    obtain ⟨hchars, hkind⟩ := Scan.of_mem_scan hscanned
    split
    · simp [Token.EmptyIffMark, hchars, SyntaxKind.isSynthetic]
    · exact Scan.emptyIffMark_scan hscanned
  · obtain ⟨count, kind, hkind, hmarks⟩ := shift_marks stack
      (blanks.length + markerWidth rest) anchor (TextRange.ofWidth offset (byteWidth content))
    dsimp only at h
    rw [List.mem_append, List.mem_append, show shift.marks = _ from hmarks] at h
    obtain (hblank | hmark) | hscanned := h
    · unfold leadingBlanks at hblank
      split at hblank
      · cases hblank
      · rename_i hblanks
        rw [List.mem_singleton.mp hblank]
        simp [Token.EmptyIffMark, hblanks, SyntaxKind.isSynthetic]
    · rw [(List.mem_replicate.mp hmark).2]
      exact emptyIffMark_mark hkind anchor
    · exact Scan.emptyIffMark_scan hscanned

theorem tiles_lines (offset : Nat) (stack : IndentStack) (rows : List (List Char)) :
    Tiles offset rows.flatten (lines offset stack rows).1.tokens := by
  induction rows generalizing offset stack with
  | nil => exact .nil offset
  | cons chars rows ih =>
      rw [lines, List.flatten_cons]
      exact (tiles_line offset stack chars).append (ih _ _)

theorem emptyIffMark_lines {offset : Nat} {stack : IndentStack} {rows : List (List Char)}
    {t : Token} (h : t ∈ (lines offset stack rows).1.tokens) : t.EmptyIffMark := by
  induction rows generalizing offset stack with
  | nil => cases h
  | cons chars rows ih =>
      rw [lines, List.mem_append] at h
      obtain h | h := h
      · exact emptyIffMark_line h
      · exact ih h

end Layout

theorem tiles_tokenize (completion : Bool) (text : String) :
    Tiles 0 text.toList (tokenize completion text).tokens := by
  have hlines := Layout.tiles_lines 0 IndentStack.fresh (Layout.splitLines text.toList)
  rw [Layout.flatten_splitLines] at hlines
  unfold tokenize
  extract_lets chars
  split
  rename_i stream stack heq
  have hstream : Tiles 0 chars stream.tokens := by rw [heq] at hlines; exact hlines
  cases completion with
  | true => simpa using hstream
  | false =>
      have hclosing := Tiles.marks (stack.size - 1) .dedent (0 + byteWidth chars)
      rw [← List.append_nil text.toList]
      simpa using hstream.append hclosing

theorem emptyIffMark_tokenize {completion : Bool} {text : String} {t : Token}
    (h : t ∈ (tokenize completion text).tokens) : t.EmptyIffMark := by
  unfold tokenize at h
  dsimp only at h
  rw [List.mem_append] at h
  obtain h | h := h
  · exact Layout.emptyIffMark_lines h
  · split at h
    · cases h
    · rw [(List.mem_replicate.mp h).2]
      exact Layout.emptyIffMark_mark rfl _

end ModelWorkspace
