import ModelWorkspace.Proofs.Token.BlankLines
import ModelWorkspace.Proofs.Token.LineEnds

/-!
# A line end at the end of a text

No token of a row looks at the line end behind it, and neither does the column of the row.  So
a line end added at the end of a text adds one token, in front of the marks that close what is
open there.  It is a line end behind a row with something on it, and blank space behind any
other (`alike_lastRow`).
-/

namespace ModelWorkspace

namespace Scan

theorem newline_mem_of_mem_scan {offset : Nat} {cs : List Char} {t : Token} (h : t ∈ scan offset cs)
    (hkind : t.kind = .newline) : '\n' ∈ cs := by
  fun_induction scan offset cs with
  | case1 => cases h
  | case2 offset c cs kind more hlexeme token ih =>
      rcases List.mem_cons.mp h with rfl | h
      · have hnewline : (lexeme c cs).1 = .newline := by simpa [token, hlexeme] using hkind
        rcases kind_eq_newline hnewline with ⟨rfl, -⟩ | ⟨-, -, hhead⟩
        · exact List.mem_cons_self
        · exact List.mem_cons_of_mem _ (List.mem_of_head? hhead)
      · exact List.mem_cons_of_mem _ (List.mem_of_mem_drop (ih h))

end Scan

namespace Layout

open Scan

/-! ## The last row -/

/-- A text is some rows that have their line ends, and what stands behind them. -/
theorem exists_openRow (cs : List Char) :
    ∃ front row, cs = front ++ row ∧ (front = [] ∨ front.getLast? = some '\n') ∧ '\n' ∉ row := by
  refine ⟨cs.rdropWhile (· != '\n'), cs.rtakeWhile (· != '\n'),
    List.rdropWhile_append_rtakeWhile.symm, ?_, ?_⟩
  · by_cases hfront : cs.rdropWhile (· != '\n') = []
    · exact .inl hfront
    · have hnewline := List.rdropWhile_last_not _ _ hfront
      right
      rw [List.getLast?_eq_some_getLast hfront]
      simpa using hnewline
  · intro hmem
    exact absurd (List.mem_rtakeWhile_imp hmem) (by decide)

/-- A text that does not end in a line end has a last row without one, and the rows in front
of it have theirs. -/
theorem exists_lastRow {cs : List Char} (hne : cs ≠ []) (h : ∀ c ∈ cs.getLast?, c ≠ '\n') :
    ∃ front row, cs = front ++ row ∧ (front = [] ∨ front.getLast? = some '\n') ∧
      row ≠ [] ∧ '\n' ∉ row := by
  obtain ⟨front, row, hcs, hfront, hrow⟩ := exists_openRow cs
  refine ⟨front, row, hcs, hfront, ?_, hrow⟩
  rintro rfl
  rw [List.append_nil] at hcs
  subst hcs
  exact h '\n' (hfront.resolve_left hne) rfl

/-- Where no line ends, the last token is tied to what is part of a name at most. -/
theorem ties_last (offset : Nat) (stack : IndentStack) {row : List Char} (hrow : '\n' ∉ row)
    {next : Option SyntaxKind} (hdot : next ≠ some .dot) (hident : next ≠ some .ident) :
    ∀ t ∈ (line offset stack row).1.getLast?, Sign.ties t.kind next = false := by
  intro t ht
  have hlast : t.kind ≠ .newline ∧ t.kind.isSynthetic = false := by
    cases hcolumn : column? row with
    | none =>
        rw [line_of_blank hcolumn] at ht
        have hmem := List.mem_of_getLast? ht
        exact ⟨kind_ne_newline_of_mem_blankLine hmem, unmarked_blankLineTokens _ _ t hmem⟩
    | some column =>
        obtain ⟨blanks, behind, hchars, hblanks, hne, heq⟩ :=
          line_of_filled offset stack hcolumn
        rw [heq, List.getLast?_append_of_ne_nil _ (scan_ne_nil _ hne)] at ht
        have hmem := List.mem_of_getLast? ht
        refine ⟨fun hkind => hrow ?_, (of_mem_scan hmem).2⟩
        rw [hchars]
        exact List.mem_append_right _ (newline_mem_of_mem_scan hmem hkind)
  obtain ⟨hnewline, hmark⟩ := hlast
  have hpartner : ∀ partner ∈ Sign.partner? t.kind, partner = .dot ∨ partner = .ident := by
    revert hnewline hmark
    cases t.kind <;> simp [Sign.partner?, SyntaxKind.isSynthetic]
  rw [Sign.ties]
  cases hfound : Sign.partner? t.kind with
  | none => rfl
  | some partner =>
      rcases hpartner partner hfound with rfl | rfl
      · exact beq_eq_false_iff_ne.mpr hdot.symm
      · exact beq_eq_false_iff_ne.mpr hident.symm

/-- The last row, with a line end behind it or without one. -/
theorem alike_lastRow (offset anchor anchor' : Nat) (stack : IndentStack) {row : List Char}
    (hrow : '\n' ∉ row) (hlast : Apart ['\n'] row) :
    ∃ ending, Alike ending (closedLines offset stack [row] anchor)
      (closedLines offset stack [row ++ ['\n']] anchor') := by
  obtain ⟨last, hkind, heq⟩ := line_lineEnd (.inl rfl) offset stack hlast
  simp only [closedLines, lines, heq, List.append_nil]
  generalize (line offset stack row).2.1.size - 1 = count
  have hmark : ∀ anchor kind, kind ≠ .dedent →
      Sign.first? (List.replicate count (mark .dedent anchor)) ≠ some kind :=
    fun anchor _ => Sign.first?_marks count anchor
  have hplain : Sign.ofTokens ((line offset stack row).1 ++
      List.replicate count (mark .dedent anchor)) =
      Sign.ofTokens (line offset stack row).1 ++ List.replicate count (Sign.mark .dedent) := by
    rw [Sign.ofTokens_append 
        (ties_last offset stack hrow (hmark _ _ (by decide)) (hmark _ _ (by decide))),
      Sign.ofTokens_marks]
  have hended : Sign.ofTokens ((line offset stack row).1 ++
      last :: List.replicate count (mark .dedent anchor')) =
      Sign.ofTokens (line offset stack row).1 ++
        Sign.ofTokens (last :: List.replicate count (mark .dedent anchor')) := by
    refine Sign.ofTokens_append (ties_last offset stack hrow ?_ ?_) <;>
      · rw [Sign.first?, List.head?_cons, Option.map_some, hkind]
        split <;> decide
  rw [List.append_assoc, List.singleton_append]
  by_cases hblank : column? row = none
  · rw [if_pos hblank] at hkind
    refine ⟨.same, hplain.trans (Eq.trans ?_ hended.symm)⟩
    rw [Sign.ofTokens_trivia (by rw [hkind]; rfl), Sign.ofTokens_marks]
  · rw [if_neg hblank] at hkind
    refine ⟨.newline, Sign.ofTokens (line offset stack row).1, count, hplain, hended.trans ?_⟩
    have hsign : Sign.ofToken last
        (Sign.first? (List.replicate count (mark .dedent anchor'))) = Sign.mark .newline := by
      rw [Sign.ofToken, Sign.textOf, hkind]
      exact congrArg (Sign.mk .newline []) (beq_eq_false_iff_ne.mpr
        (hmark anchor' .newline (by decide)).symm)
    rw [Sign.ofTokens_cons (by rw [hkind]; rfl), hsign, Sign.ofTokens_marks]

end Layout

open Layout Scan in
/-- A line end added to a text without one leaves tokens that are alike, up to the line end, and
the same reports on indentation. -/
theorem tokenize_newline {text : String} (h : ∀ c ∈ text.toList.getLast?, isLineEnd c = false) :
    let plain := tokenize false text
    let ended := tokenize false (text ++ "\n")
    (∃ ending, Alike ending plain.tokens ended.tokens) ∧ plain.errors = ended.errors := by
  intro plain ended
  have hnewline : "\n".toList = ['\n'] := rfl
  unfold plain ended
  rw [tokens_tokenize, tokens_tokenize, errors_tokenize, errors_tokenize, String.toList_append,
    hnewline]
  by_cases hempty : text.toList = []
  · -- a text that consists of a line end is a blank line
    have hblank : IsBlankLine ['\n'] :=
      ⟨[], [], ['\n'], rfl, List.forall_mem_nil _, .inl rfl, .inl rfl⟩
    have hrows : splitLines ['\n'] = [['\n']] := rfl
    rw [hempty, List.nil_append, hrows, hblank.lines]
    exact ⟨⟨.same, (signs_closedLines _ _ _ _ _ _).trans (hblank.signs _ _ _ _).symm⟩, rfl⟩
  · have hnotEnd : ∀ c ∈ text.toList.getLast?, c ≠ '\n' := by
      rintro c hc rfl
      exact absurd (h _ hc) (by decide)
    obtain ⟨front, row, hcs, hfront, hne, hrow⟩ := exists_lastRow hempty hnotEnd
    have hlast : Apart ['\n'] row := by
      refine fun c hc => ⟨?_, fun _ => rfl⟩
      rintro rfl
      refine absurd (h '\r' ?_) (by decide)
      rwa [hcs, List.getLast?_append_of_ne_nil _ hne]
    have hline : OneLine row := fun hmem => hrow (List.dropLast_subset row hmem)
    have hline' : OneLine (row ++ ['\n']) := by rwa [OneLine, List.dropLast_concat]
    have hends : ∀ row ∈ splitLines front, EndsLine row :=
      fun row => endsLine_of_mem_splitLines hfront
    have hsplit : splitLines text.toList = splitLines front ++ [row] := by
      rw [hcs, splitLines_append hfront, splitLines_oneLine hline hne]
    have hsplit' : splitLines (text.toList ++ ['\n']) = splitLines front ++ [row ++ ['\n']] := by
      rw [hcs, List.append_assoc, splitLines_append hfront,
        splitLines_oneLine hline' (List.append_ne_nil_of_left_ne_nil hne _)]
    rw [hsplit, hsplit']
    constructor
    · obtain ⟨ending, halike⟩ := alike_lastRow (0 + byteWidth (splitLines front).flatten)
        (byteWidth text.toList) (byteWidth (text.toList ++ ['\n']))
        (lines 0 IndentStack.fresh (splitLines front)).2 hrow hlast
      refine ⟨ending, halike.append_left
        (signs_append _ _ _ hends (List.forall_mem_singleton.mpr hline))
        (signs_append _ _ _ hends (List.forall_mem_singleton.mpr hline'))⟩
    · obtain ⟨last, -, heq⟩ := line_lineEnd (.inl rfl) (0 + byteWidth (splitLines front).flatten)
        (lines 0 IndentStack.fresh (splitLines front)).2 hlast
      rw [lines_append, lines_append]
      dsimp only
      rw [lines, lines, heq]
      rfl

end ModelWorkspace
