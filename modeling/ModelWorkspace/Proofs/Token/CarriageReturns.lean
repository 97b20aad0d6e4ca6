import ModelWorkspace.Proofs.Token.LineEnds
import ModelWorkspace.Proofs.Token.Rows

/-!
# Carriage returns in front of the line feeds

A text may be written with a carriage return in front of each of its line feeds.  Its rows are
the rows of the plain text, each with the longer line end (`splitLines_withReturns`), so they
have the same signs and leave the same columns open (`line_withReturns`).

A text must not have a carriage return already, and no backslash in front of a line feed: within
quotes a backslash goes together with the carriage return behind it, but never with a line feed.
-/

namespace ModelWorkspace

namespace Layout

open Scan

/-- The characters with a carriage return in front of each line feed. -/
def withReturns (cs : List Char) : List Char :=
  cs.flatMap fun c => if c = '\n' then ['\r', '\n'] else [c]

theorem withReturns_cons (c : Char) (cs : List Char) :
    withReturns (c :: cs) = (if c = '\n' then ['\r', '\n'] else [c]) ++ withReturns cs :=
  List.flatMap_cons

theorem withReturns_of_notMem {cs : List Char} (h : '\n' ∉ cs) : withReturns cs = cs := by
  induction cs with
  | nil => rfl
  | cons c cs ih =>
      obtain ⟨hc, hcs⟩ := not_or.mp (fun hmem => h (List.mem_cons.mpr hmem))
      rw [withReturns_cons, if_neg (Ne.symm hc), ih hcs, List.singleton_append]

theorem splitLines_withReturns (cs : List Char) :
    splitLines (withReturns cs) = (splitLines cs).map withReturns := by
  induction cs with
  | nil => rfl
  | cons c cs ih =>
      rw [withReturns_cons, splitLines]
      by_cases hc : c = '\n'
      · subst hc
        rw [if_pos rfl, if_pos rfl, List.map_cons, ← ih]
        rfl
      · rw [if_neg hc, if_neg hc, List.singleton_append, splitLines, if_neg hc, ih]
        cases splitLines cs with
        | nil =>
            have hrow : withReturns [c] = [c] := withReturns_of_notMem (by simp [Ne.symm hc])
            rw [List.map_nil, List.map_singleton, hrow]
        | cons row rows =>
            simp only [List.map_cons]
            rw [withReturns_cons, if_neg hc, List.singleton_append]

/-! ## One row -/

/-- Characters with no carriage return among them, and no backslash in front of a line feed. -/
structure Plain (cs : List Char) : Prop where
  returns : '\r' ∉ cs
  backslashes : ¬ ['\\', '\n'] <:+: cs

theorem Plain.of_isInfix {cs part : List Char} (h : Plain cs) (hpart : part <:+: cs) :
    Plain part where
  returns := fun hmem => h.returns (hpart.subset hmem)
  backslashes := fun hends => h.backslashes (hends.trans hpart)

theorem isInfix_of_mem_splitLines {cs row : List Char} (h : row ∈ splitLines cs) :
    row <:+: cs := by
  obtain ⟨front, behind, hrows⟩ := List.append_of_mem h
  refine ⟨front.flatten, behind.flatten, ?_⟩
  rw [← flatten_splitLines cs, hrows, List.flatten_append, List.flatten_cons, List.append_assoc]

/-- A plain row in front of its line feed takes nothing of a line end with it. -/
theorem Plain.apart {front ending : List Char} (h : Plain (front ++ ['\n'])) :
    Apart ending front := by
  intro c hc
  obtain ⟨body, rfl⟩ := List.getLast?_eq_some_iff.mp hc
  constructor
  · rintro rfl
    exact h.returns (by simp)
  · rintro rfl
    refine absurd ?_ h.backslashes
    exact ⟨body, [], by simp⟩

variable (offset offset' : Nat) (stack : IndentStack)

/-- What a row adds, as far as it is looked at, is the same with the longer line end. -/
theorem line_withReturns {row : List Char} (hline : OneLine row) (hplain : Plain row) :
    let here := line offset stack row
    let there := line offset' stack (withReturns row)
    here.1.map Sign.look = there.1.map Sign.look ∧ here.2.1 = there.2.1 ∧
      here.2.2.map LexError.message = there.2.2.map LexError.message := by
  by_cases hmem : '\n' ∈ row
  · obtain ⟨front, rfl⟩ : ∃ front, row = front ++ ['\n'] := by
      have hne : row ≠ [] := List.ne_nil_of_mem hmem
      have hsplit := List.dropLast_append_getLast hne
      rw [← hsplit, List.mem_append, List.mem_singleton] at hmem
      exact ⟨row.dropLast, by rw [hmem.resolve_left hline, hsplit]⟩
    have hfront : '\n' ∉ front := by rwa [OneLine, List.dropLast_concat] at hline
    have hreturns : withReturns (front ++ ['\n']) = front ++ ['\r', '\n'] := by
      rw [withReturns, List.flatMap_append]
      exact congrArg (· ++ ['\r', '\n']) (withReturns_of_notMem hfront)
    obtain ⟨last, hkind, heq⟩ := line_lineEnd (.inl rfl) offset stack (hplain.apart)
    obtain ⟨last', hkind', heq'⟩ := line_lineEnd (.inr rfl) offset' stack (hplain.apart)
    obtain ⟨hfaces, hopened, herrors⟩ := moved_line offset offset' stack front
    have hlast : Sign.look last = Sign.look last' := by
      rw [Sign.look, Sign.look, Sign.textOf, Sign.textOf, hkind, hkind']
      split <;> rfl
    rw [hreturns, heq, heq']
    refine ⟨?_, hopened, herrors⟩
    rw [List.map_append, List.map_append, Sign.looks_of_faces hfaces, List.map_singleton,
      List.map_singleton, hlast]
  · obtain ⟨hfaces, hopened, herrors⟩ := moved_line offset offset' stack row
    rw [withReturns_of_notMem hmem]
    exact ⟨Sign.looks_of_faces hfaces, hopened, herrors⟩

/-! ## All rows -/

theorem lines_withReturns {rows : List (List Char)} (hlines : ∀ row ∈ rows, OneLine row)
    (hplain : ∀ row ∈ rows, Plain row) :
    let here := lines offset stack rows
    let there := lines offset' stack (rows.map withReturns)
    here.1.tokens.map Sign.look = there.1.tokens.map Sign.look ∧ here.2 = there.2 ∧
      here.1.errors.map LexError.message = there.1.errors.map LexError.message := by
  induction rows generalizing offset offset' stack with
  | nil => exact ⟨rfl, rfl, rfl⟩
  | cons row rows ih =>
      obtain ⟨hrow, hlines⟩ := List.forall_mem_cons.mp hlines
      obtain ⟨hplainRow, hplain⟩ := List.forall_mem_cons.mp hplain
      obtain ⟨hlooks, hopened, herrors⟩ := line_withReturns offset offset' stack hrow hplainRow
      obtain ⟨hmore, hfinal, hreports⟩ := ih (offset + byteWidth row)
        (offset' + byteWidth (withReturns row)) (line offset stack row).2.1 hlines hplain
      rw [List.map_cons, lines, lines]
      dsimp only
      rw [List.map_append, List.map_append, List.map_append, List.map_append, hlooks, herrors,
        hmore, hreports, ← hopened]
      exact ⟨rfl, hfinal, rfl⟩

end Layout

/-- The text with a carriage return in front of each line feed. -/
def withReturns (text : String) : String :=
  String.ofList (Layout.withReturns text.toList)

open Layout in
/-- Carriage returns in front of the line feeds leave tokens that are alike, and reports on
indentation that say the same. -/
theorem tokenize_withReturns {text : String} (hplain : Plain text.toList) :
    let plain := tokenize false text
    let returned := tokenize false (withReturns text)
    Alike .same plain.tokens returned.tokens ∧
      plain.errors.map LexError.message = returned.errors.map LexError.message := by
  intro plain returned
  obtain ⟨hlooks, hfinal, herrors⟩ := lines_withReturns 0 0 IndentStack.fresh
    oneLine_of_mem_splitLines fun row hrow => hplain.of_isInfix (isInfix_of_mem_splitLines hrow)
  have hrows : splitLines (withReturns text).toList = (splitLines text.toList).map
      Layout.withReturns := by
    rw [withReturns, String.toList_ofList, splitLines_withReturns]
  unfold plain returned
  rw [errors_tokenize, errors_tokenize, hrows]
  refine ⟨?_, herrors⟩
  change Sign.ofTokens _ = Sign.ofTokens _
  rw [tokens_tokenize, tokens_tokenize, hrows]
  refine Sign.before_congr ?_
  rw [closedLines, closedLines, List.map_append, List.map_append, hlooks, hfinal,
    List.map_replicate, List.map_replicate]
  rfl

end ModelWorkspace
