import ModelWorkspace.Proofs.Token.Places
import ModelWorkspace.Proofs.Token.Signs

/-!
# Rows, wherever they stand

A text is read row by row, and a row is read in the same way wherever it stands: what it adds
depends on the columns that are open before it, but its offset shows nowhere except in the
offsets of its tokens and in the range of its report.  So a text may be taken apart at the
front of a row (`splitLines_append`, `lines_append`), and what is behind may be moved
(`moved_lines`).

The signs of the tokens in front do not tell what follows them either.  A row that has its
line end ends in a token that is tied to a line end at most, and no row begins with one
(`sealed_lines`, `first?_lines`); so the signs of rows add up (`signs_append`).
-/

namespace ModelWorkspace

/-- A token, wherever it stands. -/
def Token.face (t : Token) : SyntaxKind × List Char :=
  (t.kind, t.chars)

namespace Sign

/-- A token, as far as its sign shows it. -/
def look (t : Token) : SyntaxKind × List Char :=
  (t.kind, textOf t)

variable {ts us : List Token} {next : Option SyntaxKind}

theorem first?_congr (h : ts.map look = us.map look) : first? ts = first? us := by
  have hhead := congrArg (fun looks => looks.head?.map Prod.fst) h
  rwa [List.head?_map, List.head?_map, Option.map_map, Option.map_map] at hhead

/-- Signs do not tell where the tokens stand, nor how blank space and line ends are written. -/
theorem before_congr (h : ts.map look = us.map look) : before next ts = before next us := by
  induction ts generalizing us with
  | nil => rw [List.map_eq_nil_iff.mp h.symm]
  | cons t ts ih =>
      cases us with
      | nil => cases h
      | cons u us =>
          obtain ⟨hlook, hbehind⟩ := List.cons.inj h
          obtain ⟨hkind, htext⟩ := Prod.mk.inj hlook
          have hsign : ∀ next, ofToken t next = ofToken u next := by
            intro next
            rw [ofToken, ofToken, htext, hkind]
          unfold before
          rw [hkind, hsign, ih hbehind, first?_congr hbehind]

theorem looks_of_faces (h : ts.map Token.face = us.map Token.face) :
    ts.map look = us.map look := by
  have hlook : ∀ ts : List Token, ts.map look = (ts.map Token.face).map fun face =>
      (face.1, if face.1.isLiteral then face.2 else []) := by
    intro ts
    rw [List.map_map]
    rfl
  rw [hlook, hlook, h]

/-- What follows is seen by the last token only. -/
theorem before_eq_ofTokens (h : ∀ t ∈ ts.getLast?, ties t.kind next = false) :
    before next ts = ofTokens ts := by
  induction ts with
  | nil => rfl
  | cons t ts ih =>
      have hbehind : before next ts = before none ts := by
        refine ih fun last hlast => h last ?_
        rw [List.getLast?_cons, Option.mem_def.mp hlast]
        rfl
      have hsign : ofToken t ((first? ts).or next) = ofToken t ((first? ts).or none) := by
        cases ts with
        | nil =>
            have hnone : ties t.kind none = false := by
              unfold ties
              cases partner? t.kind <;> rfl
            exact congrArg (Sign.mk t.kind (textOf t)) ((h t rfl).trans hnone.symm)
        | cons u us => rfl
      unfold ofTokens before
      rw [hbehind, hsign]

theorem ofTokens_append (h : ∀ t ∈ ts.getLast?, ties t.kind (first? us) = false) :
    ofTokens (ts ++ us) = ofTokens ts ++ ofTokens us := by
  rw [ofTokens, before_append, Option.or_none, before_eq_ofTokens h]
  rfl

theorem ofTokens_marks (count offset : Nat) :
    ofTokens (List.replicate count (Layout.mark .dedent offset)) =
      List.replicate count (mark .dedent) := by
  induction count with
  | zero => rfl
  | succ count ih =>
      rw [List.replicate_succ, ofTokens_cons rfl, ih]
      rfl

theorem first?_marks (count offset : Nat) {kind : SyntaxKind} (h : kind ≠ .dedent) :
    first? (List.replicate count (Layout.mark .dedent offset)) ≠ some kind := by
  cases count with
  | zero => exact fun heq => by cases heq
  | succ count => exact fun heq => h (Option.some.inj heq).symm

/-- The last token is that of a line end, which is blank space behind a blank line. -/
def Sealed (tokens : List Token) : Prop :=
  ∀ t ∈ tokens.getLast?, t.kind = .newline ∨ t.kind = .whitespace

theorem Sealed.ties (h : Sealed ts) (hnext : next ≠ some .newline) :
    ∀ t ∈ ts.getLast?, ties t.kind next = false := by
  intro t ht
  rcases h t ht with hkind | hkind
  · rw [hkind]
    exact beq_eq_false_iff_ne.mpr hnext.symm
  · rw [hkind]
    rfl

theorem Sealed.append (hts : Sealed ts) (hus : Sealed us) : Sealed (ts ++ us) := by
  intro t ht
  rw [List.getLast?_append] at ht
  rcases Option.or_eq_some_iff.mp ht with ht | ⟨-, ht⟩
  · exact hus t ht
  · exact hts t ht

end Sign

namespace Scan

theorem faces_scan (offset offset' : Nat) (cs : List Char) :
    (scan offset cs).map Token.face = (scan offset' cs).map Token.face := by
  fun_induction scan offset cs generalizing offset' with
  | case1 => rw [scan]
  | case2 offset c cs kind more hlexeme token ih =>
      rw [scan, hlexeme, List.map_cons, List.map_cons]
      exact congrArg _ (ih _)

theorem scan_ne_nil (offset : Nat) {cs : List Char} (h : cs ≠ []) : scan offset cs ≠ [] := by
  intro hnil
  have hchars := flatMap_scan offset cs
  rw [hnil] at hchars
  exact h hchars.symm

/-- What ends a line is scanned last. -/
theorem sealed_scan (offset : Nat) {cs : List Char} (hline : EndsLine cs) :
    Sign.Sealed (scan offset cs) := by
  refine (OneLine.scan_induction (P := fun cs ts => EndsLine cs → ts ≠ [] ∧ Sign.Sealed ts)
    ?_ ?_ ?_ hline.oneLine offset hline).2
  · rintro ⟨front, hfront, -⟩
    simp at hfront
  · intro cs t hnewline _
    refine ⟨List.cons_ne_nil _ _, fun u hu => ?_⟩
    obtain rfl := Option.some.inj hu
    exact .inl hnewline
  · intro cs behind t ts hcs _ ih hline
    obtain ⟨hne, hsealed⟩ := ih (hline.of_append hcs)
    refine ⟨List.cons_ne_nil _ _, fun u hu => ?_⟩
    rw [List.getLast?_cons_of_ne_nil hne] at hu
    exact hsealed u hu

end Scan

namespace Layout

open Scan

/-! ## The front of a row -/

theorem splitLines_append {front : List Char} (h : front = [] ∨ front.getLast? = some '\n')
    (behind : List Char) :
    splitLines (front ++ behind) = splitLines front ++ splitLines behind := by
  induction front with
  | nil => rfl
  | cons c front ih =>
      rw [List.cons_append, splitLines, splitLines]
      by_cases hc : c = '\n'
      · have hfront : front = [] ∨ front.getLast? = some '\n' := by
          cases front with
          | nil => exact .inl rfl
          | cons d front => right; simpa using h
        rw [if_pos hc, if_pos hc, ih hfront, List.cons_append]
      · have hlast : front.getLast? = some '\n' := by
          cases front with
          | nil => simp [hc] at h
          | cons d front => simpa using h
        rw [if_neg hc, if_neg hc, ih (.inr hlast)]
        cases hrows : splitLines front with
        | nil =>
            have hflatten := flatten_splitLines front
            rw [hrows] at hflatten
            rw [← hflatten] at hlast
            cases hlast
        | cons row rows => rfl

theorem splitLines_oneLine {row : List Char} (hline : OneLine row) (hne : row ≠ []) :
    splitLines row = [row] := by
  induction row with
  | nil => exact absurd rfl hne
  | cons c row ih =>
      cases row with
      | nil =>
          rw [splitLines, splitLines]
          split <;> rfl
      | cons d row =>
          have hc : c ≠ '\n' := by
            rintro rfl
            exact hline List.mem_cons_self
          rw [splitLines, if_neg hc, ih (hline.drop 1) (List.cons_ne_nil _ _)]

theorem oneLine_of_mem_splitLines {cs : List Char} : ∀ row ∈ splitLines cs, OneLine row := by
  have hended : Ended true (splitLines cs) := ended_splitLines (.inl rfl)
  generalize splitLines cs = rows at hended
  induction rows with
  | nil => exact List.forall_mem_nil _
  | cons row rows ih => exact List.forall_mem_cons.mpr ⟨hended.1, ih hended.2.2⟩

theorem lines_append (offset : Nat) (stack : IndentStack) (rows more : List (List Char)) :
    lines offset stack (rows ++ more) =
      let front := lines offset stack rows
      let behind := lines (offset + byteWidth rows.flatten) front.2 more
      (⟨front.1.tokens ++ behind.1.tokens, front.1.errors ++ behind.1.errors⟩, behind.2) := by
  induction rows generalizing offset stack with
  | nil => rfl
  | cons row rows ih =>
      have hbehind := ih (offset + byteWidth row) (line offset stack row).2.1
      rw [List.cons_append, lines, lines, List.flatten_cons, byteWidth_append]
      dsimp only at hbehind ⊢
      rw [hbehind]
      simp only [List.append_assoc, Nat.add_assoc]

/-! ## Moved rows -/

section Moved

variable (offset offset' : Nat) (stack : IndentStack)

theorem moved_shift (column anchor anchor' : Nat) (range range' : TextRange) :
    let here := shift stack column anchor range
    let there := shift stack column anchor' range'
    here.marks.map Token.face = there.marks.map Token.face ∧ here.stack = there.stack ∧
      here.errors.map LexError.message = there.errors.map LexError.message := by
  unfold shift
  split
  · exact ⟨rfl, rfl, rfl⟩
  · split
    · split
      · exact ⟨by simp [Token.face, mark], rfl, rfl⟩
      · exact ⟨rfl, rfl, rfl⟩
    · exact ⟨rfl, rfl, rfl⟩

theorem moved_line (chars : List Char) :
    let here := line offset stack chars
    let there := line offset' stack chars
    here.1.map Token.face = there.1.map Token.face ∧ here.2.1 = there.2.1 ∧
      here.2.2.map LexError.message = there.2.2.map LexError.message := by
  unfold line
  extract_lets content blanks rest anchor shifted here anchor' shifted' there
  unfold here there
  split
  · -- the kind that a token of a blank line has shows in its face
    have hface : ∀ offset, (blankLineTokens offset chars).map Token.face =
        ((scan offset chars).map Token.face).map fun face =>
          if face.1 = .newline then (.whitespace, face.2) else face := by
      intro offset
      rw [blankLineTokens, List.map_map, List.map_map]
      refine List.map_congr_left fun t _ => ?_
      by_cases hkind : t.kind = .newline <;> simp [Token.face, hkind]
    dsimp only
    rw [hface, hface, faces_scan offset offset']
    exact ⟨rfl, rfl, rfl⟩
  · obtain ⟨hmarks, hstack, herrors⟩ := moved_shift stack (blanks.length + markerWidth rest)
      anchor anchor' (TextRange.ofWidth offset (byteWidth content))
      (TextRange.ofWidth offset' (byteWidth content))
    have hleading : (leadingBlanks offset blanks).map Token.face =
        (leadingBlanks offset' blanks).map Token.face := by
      unfold leadingBlanks
      split <;> rfl
    refine ⟨?_, hstack, herrors⟩
    dsimp only
    rw [List.map_append, List.map_append, List.map_append, List.map_append, hleading, hmarks,
      faces_scan anchor anchor']

theorem moved_lines (rows : List (List Char)) :
    let here := lines offset stack rows
    let there := lines offset' stack rows
    here.1.tokens.map Token.face = there.1.tokens.map Token.face ∧ here.2 = there.2 ∧
      here.1.errors.map LexError.message = there.1.errors.map LexError.message := by
  induction rows generalizing offset offset' stack with
  | nil => exact ⟨rfl, rfl, rfl⟩
  | cons row rows ih =>
      obtain ⟨htokens, hopened, herrors⟩ := moved_line offset offset' stack row
      have hbehind := ih (offset + byteWidth row) (offset' + byteWidth row)
        (line offset stack row).2.1
      rw [lines, lines]
      dsimp only at hbehind ⊢
      obtain ⟨hmore, hfinal, hreports⟩ := hbehind
      rw [hopened] at hmore hfinal hreports ⊢
      rw [List.map_append, List.map_append, List.map_append, List.map_append, htokens, herrors,
        hmore, hreports]
      exact ⟨rfl, hfinal, rfl⟩

end Moved

/-! ## The end of a row and the front of the next one -/

theorem sealed_line (offset : Nat) (stack : IndentStack) {row : List Char}
    (hline : EndsLine row) : Sign.Sealed (line offset stack row).1 := by
  cases hcolumn : column? row with
  | none =>
      rw [line_of_blank hcolumn]
      intro t ht
      rw [blankLineTokens, List.getLast?_map] at ht
      obtain ⟨scanned, hscanned, rfl⟩ := Option.map_eq_some_iff.mp ht
      right
      split
      · rfl
      · rename_i hnewline
        exact (sealed_scan offset hline scanned hscanned).resolve_left hnewline
  | some column =>
      obtain ⟨blanks, behind, hchars, hblanks, hne, heq⟩ :=
        line_of_filled offset stack hcolumn
      have hbehind : EndsLine behind :=
        (hchars ▸ hline).of_append fun hmem => by cases hblanks _ hmem
      rw [heq]
      intro t ht
      rw [List.getLast?_append_of_ne_nil _ (scan_ne_nil _ hne)] at ht
      exact sealed_scan _ hbehind t ht

theorem sealed_lines (offset : Nat) (stack : IndentStack) {rows : List (List Char)}
    (hrows : ∀ row ∈ rows, EndsLine row) : Sign.Sealed (lines offset stack rows).1.tokens := by
  induction rows generalizing offset stack with
  | nil => exact fun _ ht => by cases ht
  | cons row rows ih =>
      obtain ⟨hrow, hrows⟩ := List.forall_mem_cons.mp hrows
      rw [lines]
      exact (sealed_line offset stack hrow).append (ih _ _ hrows)

/-- No row begins with a line end: that of a blank line is blank space. -/
theorem first?_line (offset : Nat) (stack : IndentStack) {row : List Char}
    (hline : OneLine row) : Sign.first? (line offset stack row).1 ≠ some .newline := by
  obtain ⟨ends, hparts⟩ := exists_parts row
  unfold line
  extract_lets content blanks rest anchor shifted
  split
  · intro hfirst
    obtain ⟨t, ht, hkind⟩ := Option.map_eq_some_iff.mp hfirst
    exact kind_ne_newline_of_mem_blankLine (List.mem_of_head? ht) hkind
  · rename_i hfilled
    have hdrop : row.drop blanks.length = rest ++ ends := by
      conv_lhs => rw [hparts.chars_eq]
      exact List.drop_left
    obtain ⟨c, more, hrest⟩ := List.exists_cons_of_ne_nil fun hnil => hfilled (.inl hnil)
    have hc : c ≠ '#' := by
      rintro rfl
      exact hfilled (.inr (by rw [hrest]; rfl))
    have hscan : Sign.first? (scan anchor (rest ++ ends)) ≠ some .newline := by
      rw [hrest, List.cons_append, scan]
      exact fun heq => (hparts.first hline hrest hc).1 (Option.some.inj heq)
    have hleading : Sign.first? (leadingBlanks offset blanks) ≠ some .newline := by
      unfold leadingBlanks
      split <;> exact fun heq => by cases heq
    have hmarks : Sign.first? shifted.marks ≠ some .newline := by
      obtain ⟨count, kind, hkind, hmarks⟩ := shift_marks stack
        (blanks.length + markerWidth rest) anchor (TextRange.ofWidth offset (byteWidth content))
      rw [show shifted.marks = _ from hmarks]
      cases count with
      | zero => exact fun heq => by cases heq
      | succ count =>
          intro heq
          rw [show kind = .newline from Option.some.inj heq] at hkind
          cases hkind
    dsimp only
    rw [hdrop, Sign.first?_append, Sign.first?_append]
    intro hfirst
    rcases Option.or_eq_some_iff.mp hfirst with hfirst | ⟨-, hfirst⟩
    · rcases Option.or_eq_some_iff.mp hfirst with hfirst | ⟨-, hfirst⟩
      · exact hleading hfirst
      · exact hmarks hfirst
    · exact hscan hfirst

theorem first?_lines (offset : Nat) (stack : IndentStack) {rows : List (List Char)}
    (hrows : ∀ row ∈ rows, OneLine row) :
    Sign.first? (lines offset stack rows).1.tokens ≠ some .newline := by
  induction rows generalizing offset stack with
  | nil => exact fun heq => by cases heq
  | cons row rows ih =>
      obtain ⟨hrow, hrows⟩ := List.forall_mem_cons.mp hrows
      rw [lines]
      dsimp only
      rw [Sign.first?_append]
      intro hfirst
      rcases Option.or_eq_some_iff.mp hfirst with hfirst | ⟨-, hfirst⟩
      · exact first?_line offset stack hrow hfirst
      · exact ih _ _ hrows hfirst

/-! ## Rows up to the end of a text -/

/-- The tokens of the rows up to the end of a text, and the marks at its end that close what
is open there. -/
def closedLines (offset : Nat) (stack : IndentStack) (rows : List (List Char))
    (anchor : Nat) : List Token :=
  (lines offset stack rows).1.tokens ++
    List.replicate ((lines offset stack rows).2.size - 1) (mark .dedent anchor)

theorem tokens_tokenize (text : String) :
    (tokenize false text).tokens =
      closedLines 0 IndentStack.fresh (splitLines text.toList) (byteWidth text.toList) := rfl

theorem errors_tokenize (text : String) :
    (tokenize false text).errors =
      (lines 0 IndentStack.fresh (splitLines text.toList)).1.errors := rfl

section Closed

variable (offset offset' : Nat) (stack : IndentStack) {rows : List (List Char)}
  (anchor anchor' : Nat)

theorem closedLines_append (rows more : List (List Char)) :
    closedLines offset stack (rows ++ more) anchor =
      (lines offset stack rows).1.tokens ++
        closedLines (offset + byteWidth rows.flatten) (lines offset stack rows).2 more anchor := by
  rw [closedLines, lines_append, closedLines, List.append_assoc]

theorem first?_closedLines (hrows : ∀ row ∈ rows, OneLine row) :
    Sign.first? (closedLines offset stack rows anchor) ≠ some .newline := by
  rw [closedLines, Sign.first?_append]
  intro hfirst
  rcases Option.or_eq_some_iff.mp hfirst with hfirst | ⟨-, hfirst⟩
  · exact first?_lines offset stack hrows hfirst
  · exact Sign.first?_marks _ _ (by decide) hfirst

/-- The signs of rows are the same wherever they stand. -/
theorem signs_closedLines (rows : List (List Char)) :
    Sign.ofTokens (closedLines offset stack rows anchor) =
      Sign.ofTokens (closedLines offset' stack rows anchor') := by
  obtain ⟨hfaces, hfinal, -⟩ := moved_lines offset offset' stack rows
  have hmarks : ∀ count, (List.replicate count (mark .dedent anchor)).map Token.face =
      (List.replicate count (mark .dedent anchor')).map Token.face := by
    intro count
    rw [List.map_replicate, List.map_replicate]
    rfl
  refine Sign.before_congr (Sign.looks_of_faces ?_)
  rw [closedLines, closedLines, List.map_append, List.map_append, hfaces, hfinal, hmarks]

/-- The signs of rows that have their line ends stand before those of the other rows. -/
theorem signs_append {more : List (List Char)} (hrows : ∀ row ∈ rows, EndsLine row)
    (hmore : ∀ row ∈ more, OneLine row) :
    Sign.ofTokens (closedLines offset stack (rows ++ more) anchor) =
      Sign.ofTokens (lines offset stack rows).1.tokens ++
        Sign.ofTokens (closedLines (offset + byteWidth rows.flatten)
          (lines offset stack rows).2 more anchor) := by
  rw [closedLines_append]
  exact Sign.ofTokens_append ((sealed_lines offset stack hrows).ties
    (first?_closedLines _ _ anchor hmore))

end Closed

end Layout
end ModelWorkspace
