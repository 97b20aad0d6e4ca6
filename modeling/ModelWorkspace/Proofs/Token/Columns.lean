import Mathlib.Data.List.DropRight
import ModelWorkspace.Proofs.Token.Layout

/-!
# Open columns and the marks for them

What one line does to the columns that are open: it closes the columns that are not to the
left of its own and opens its own, with a mark for each column that is opened or closed.  A
line back to a column that was never opened is reported instead, and does nothing.

`Step` is a line together with the columns that are open before it, and a text is read in
such steps.  The columns of a step increase from the base column on, which each step hands
on to the next; and because a step writes one mark for each column, the marks of all steps
open and close blocks as brackets do (`Nesting.Balances`).
-/

namespace ModelWorkspace

namespace IndentStack

/-- The base column is open, and every other open column lies to the right of those that
were opened before it. -/
structure WellFormed (stack : IndentStack) : Prop where
  based : stack.levels.head? = some 0
  increasing : stack.levels.Pairwise (· < ·)

variable {stack : IndentStack}

theorem wellFormed_fresh : fresh.WellFormed :=
  ⟨rfl, List.pairwise_singleton _ _⟩

theorem mem_levels {column : Nat} : column ∈ stack.levels ↔ column ∈ stack.columns :=
  List.mem_reverse

theorem WellFormed.size_pos (h : stack.WellFormed) : 0 < stack.size := by
  have hne : stack.levels ≠ [] := by
    intro hnil
    have hbased := h.based
    rw [hnil] at hbased
    cases hbased
  rw [size, ← List.length_reverse]
  exact List.length_pos_iff.mpr hne

/-- Listed from the deepest one on, the open columns decrease. -/
theorem WellFormed.decreasing (h : stack.WellFormed) : stack.columns.Pairwise (· > ·) :=
  List.pairwise_reverse.mp h.increasing

theorem WellFormed.le_current (h : stack.WellFormed) {column : Nat}
    (hcolumn : column ∈ stack.columns) : column ≤ stack.current := by
  have hdecreasing := h.decreasing
  unfold current
  cases hcolumns : stack.columns with
  | nil =>
      rw [hcolumns] at hcolumn
      cases hcolumn
  | cons deepest columns =>
      rw [hcolumns] at hcolumn hdecreasing
      rcases List.mem_cons.mp hcolumn with rfl | hmem
      · exact Nat.le_refl _
      · exact Nat.le_of_lt ((List.pairwise_cons.mp hdecreasing).1 column hmem)

/-- The stack behind a line at a column: what lies to the left of it stays open, and it is
the deepest. -/
def settle (stack : IndentStack) (column : Nat) : IndentStack :=
  ⟨column :: stack.columns.filter (· < column)⟩

@[simp] theorem levels_settle (stack : IndentStack) (column : Nat) :
    (stack.settle column).levels = stack.levels.filter (· < column) ++ [column] := by
  simp [settle, levels, List.filter_reverse]

@[simp] theorem current_settle (stack : IndentStack) (column : Nat) :
    (stack.settle column).current = column := rfl

/-- The base column stays open. -/
theorem WellFormed.settle (h : stack.WellFormed) (column : Nat) :
    (stack.settle column).WellFormed where
  based := by
    rw [levels_settle]
    obtain ⟨columns, hlevels⟩ := List.head?_eq_some_iff.mp h.based
    rw [hlevels]
    by_cases hcolumn : 0 < column
    · simp [hcolumn]
    · obtain rfl : column = 0 := Nat.eq_zero_of_not_pos hcolumn
      simp
  increasing := by
    rw [levels_settle, List.pairwise_append]
    refine ⟨h.increasing.filter _, List.pairwise_singleton _ _, ?_⟩
    intro before hbefore deepest hdeepest
    rw [List.mem_singleton.mp hdeepest]
    simpa using (List.mem_filter.mp hbefore).2

/-! ## A column that is open -/

section Open

variable {column : Nat} {above below : List Nat} (h : stack.WellFormed)
  (hsplit : stack.columns = above ++ column :: below)

include h hsplit

theorem WellFormed.lt_of_above {other : Nat} (hother : other ∈ above) : column < other := by
  have hdecreasing := h.decreasing
  rw [hsplit, List.pairwise_append] at hdecreasing
  exact hdecreasing.2.2 other hother column List.mem_cons_self

theorem WellFormed.lt_of_below {other : Nat} (hother : other ∈ below) : other < column := by
  have hdecreasing := h.decreasing
  rw [hsplit, List.pairwise_append] at hdecreasing
  exact (List.pairwise_cons.mp hdecreasing.2.1).1 other hother

/-- A line at an open column closes what is to the right of it. -/
theorem WellFormed.settle_of_split : stack.settle column = ⟨column :: below⟩ := by
  have habove : above.filter (· < column) = [] :=
    List.filter_eq_nil_iff.mpr fun other hother => by
      simp [Nat.le_of_lt (h.lt_of_above hsplit hother)]
  have hbelow : below.filter (· < column) = below :=
    List.filter_eq_self.mpr fun other hother => by simp [h.lt_of_below hsplit hother]
  rw [IndentStack.settle, hsplit, List.filter_append, habove, List.filter_cons_of_neg (by simp),
    hbelow, List.nil_append]

theorem WellFormed.depthAbove?_of_split :
    stack.depthAbove? column = some above.length := by
  have habove : above.findIdx? (· == column) = none :=
    List.findIdx?_eq_none_iff.mpr fun other hother => by
      simp [Nat.ne_of_gt (h.lt_of_above hsplit hother)]
  rw [IndentStack.depthAbove?, hsplit, List.findIdx?_append, habove]
  simp [List.findIdx?_cons]

/-- If the deepest column is not to the right, nothing is. -/
theorem WellFormed.above_eq_nil (hle : stack.current ≤ column) : above = [] := by
  cases above with
  | nil => rfl
  | cons deepest above =>
      have hcurrent : stack.current = deepest := by rw [IndentStack.current, hsplit]; rfl
      have hlt := h.lt_of_above hsplit List.mem_cons_self
      omega

end Open

end IndentStack

namespace Nesting

/-! ## Marks as brackets -/

/-- The number of tokens of a kind. -/
def count (kind : SyntaxKind) (tokens : List Token) : Nat :=
  tokens.countP (·.kind == kind)

@[simp] theorem count_nil (kind : SyntaxKind) : count kind [] = 0 := rfl

@[simp] theorem count_append (kind : SyntaxKind) (ts us : List Token) :
    count kind (ts ++ us) = count kind ts + count kind us :=
  List.countP_append

@[simp] theorem count_marks (kind other : SyntaxKind) (n offset : Nat) :
    count kind (List.replicate n (Layout.mark other offset)) =
      if other = kind then n else 0 := by
  simp [count, List.countP_replicate, Layout.mark]

/-- Between `outer` blocks that are open before the tokens and `inner` ones that are open
behind them, no mark closes a block that is not open. -/
structure Balances (outer : Nat) (tokens : List Token) (inner : Nat) : Prop where
  within : ∀ before, before <+: tokens →
    count .dedent before ≤ outer + count .indent before
  settled : outer + count .indent tokens = inner + count .dedent tokens

variable {outer middle inner : Nat} {ts us : List Token}

theorem Balances.append (hts : Balances outer ts middle) (hus : Balances middle us inner) :
    Balances outer (ts ++ us) inner where
  within := by
    intro before hbefore
    rcases List.prefix_or_prefix_of_prefix hbefore (List.prefix_append ts us) with h | h
    · exact hts.within before h
    · obtain ⟨more, rfl⟩ := h
      have hmore := hus.within more ((List.prefix_append_right_inj ts).mp hbefore)
      have hsettled := hts.settled
      rw [count_append, count_append]
      omega
  settled := by
    have hfirst := hts.settled
    have hsecond := hus.settled
    rw [count_append, count_append]
    omega

theorem count_eq_zero (h : ∀ t ∈ ts, t.kind.isSynthetic = false) (kind : SyntaxKind)
    (hkind : kind.isSynthetic = true) : count kind ts = 0 := by
  refine List.countP_eq_zero.mpr fun t ht heq => ?_
  have hplain := h t ht
  rw [beq_iff_eq.mp heq, hkind] at hplain
  cases hplain

/-- Tokens that are no marks open and close nothing. -/
theorem Balances.plain (h : ∀ t ∈ ts, t.kind.isSynthetic = false) (depth : Nat) :
    Balances depth ts depth where
  within := by
    intro before hbefore
    rw [count_eq_zero (fun t ht => h t (hbefore.subset ht)) .dedent rfl]
    exact Nat.zero_le _
  settled := by
    rw [count_eq_zero h .indent rfl, count_eq_zero h .dedent rfl]

theorem Balances.indents (depth n offset : Nat) :
    Balances depth (List.replicate n (Layout.mark .indent offset)) (depth + n) where
  within := by
    intro before hbefore
    rw [(List.prefix_replicate_iff.mp hbefore).2]
    simp
  settled := by simp

theorem Balances.dedents (depth n offset : Nat) :
    Balances (depth + n) (List.replicate n (Layout.mark .dedent offset)) depth where
  within := by
    intro before hbefore
    obtain ⟨hlength, heq⟩ := List.prefix_replicate_iff.mp hbefore
    rw [heq, count_marks, count_marks]
    simp only [if_pos, reduceCtorEq, if_false]
    omega
  settled := by simp

end Nesting

namespace Layout

open Nesting

/-! ## Shifts -/

/-- The column of a line: the width of the blanks that indent it, and of the marker of a
list item behind them.  A line that is blank or holds a comment only has none. -/
def column? (chars : List Char) : Option Nat :=
  let content := content chars
  let blanks := content.takeWhile Scan.isBlank
  let rest := content.drop blanks.length
  if rest = [] ∨ rest.head? = some '#' then none else some (blanks.length + markerWidth rest)

/-- A column to which no line can go back: it lies to the left of the deepest open one, but
was not opened. -/
def IsStray (stack : IndentStack) (column : Nat) : Prop :=
  column < stack.current ∧ column ∉ stack.levels

instance (stack : IndentStack) (column : Nat) : Decidable (IsStray stack column) :=
  inferInstanceAs (Decidable (_ ∧ _))

section Shift

variable {stack : IndentStack} {column : Nat} (anchor : Nat) (range : TextRange)

theorem depthAbove?_eq_none : stack.depthAbove? column = none ↔ column ∉ stack.levels := by
  simp [IndentStack.depthAbove?, IndentStack.mem_levels, List.findIdx?_eq_none_iff,
    List.forall_mem_ne']

/-- A line at a stray column is reported and changes nothing. -/
theorem shift_of_isStray (h : IsStray stack column) :
    shift stack column anchor range = ⟨[], stack, [⟨invalidDedent column stack, range⟩]⟩ := by
  obtain ⟨hlt, hclosed⟩ := h
  unfold shift
  rw [if_neg (Nat.lt_asymm hlt), if_pos hlt, depthAbove?_eq_none.mpr hclosed]

/-- The mark for each column that a line opens or closes. -/
def marksBetween (before behind : IndentStack) (anchor : Nat) : List Token :=
  List.replicate (behind.size - before.size) (mark .indent anchor) ++
    List.replicate (before.size - behind.size) (mark .dedent anchor)

/-- A column that is neither stray nor to the right of all open ones is open. -/
theorem mem_columns_of_not_isStray (hstack : stack.WellFormed) (h : ¬IsStray stack column)
    (hle : ¬stack.current < column) : column ∈ stack.columns := by
  by_cases hlt : column < stack.current
  · by_contra hclosed
    exact h ⟨hlt, fun hmem => hclosed (IndentStack.mem_levels.mp hmem)⟩
  · have hcurrent : column = stack.current := by omega
    rw [hcurrent, IndentStack.current]
    cases hcolumns : stack.columns with
    | nil =>
        have hpos := hstack.size_pos
        rw [IndentStack.size, hcolumns] at hpos
        cases hpos
    | cons deepest columns => exact List.mem_cons_self

/-- Any other line opens its column and closes those to the right of it. -/
theorem shift_of_not_isStray (hstack : stack.WellFormed) (h : ¬IsStray stack column) :
    shift stack column anchor range =
      ⟨marksBetween stack (stack.settle column) anchor, stack.settle column, []⟩ := by
  unfold shift
  split
  · -- the line is the first one at its column, and every open column is to the left of it
    rename_i hlt
    have hkeep : stack.columns.filter (· < column) = stack.columns := by
      refine List.filter_eq_self.mpr fun other hopen => ?_
      exact decide_eq_true (Nat.lt_of_le_of_lt (hstack.le_current hopen) hlt)
    have hsettle : stack.settle column = stack.push column := by
      rw [IndentStack.settle, hkeep, IndentStack.push]
    simp [hsettle, marksBetween, IndentStack.push, IndentStack.size]
  · rename_i hle
    -- the column is open, with `above` to the right of it
    obtain ⟨above, below, hsplit⟩ :=
      List.append_of_mem (mem_columns_of_not_isStray hstack h hle)
    have hsettle := hstack.settle_of_split hsplit
    have hsize : stack.size = above.length + (below.length + 1) := by
      rw [IndentStack.size, hsplit, List.length_append, List.length_cons]
    have hmarks : marksBetween stack (stack.settle column) anchor =
        List.replicate above.length (mark .dedent anchor) := by
      rw [marksBetween, hsettle, hsize]
      simp [IndentStack.size]
    rw [hmarks, hstack.depthAbove?_of_split hsplit]
    split
    · simp [IndentStack.drop, hsplit, hsettle]
    · rename_i hge
      obtain rfl := hstack.above_eq_nil hsplit (Nat.le_of_not_lt hge)
      rw [List.nil_append] at hsplit
      simp [hsettle, ← hsplit]

end Shift

/-! ## Steps -/

/-- A line with the place where it starts and the columns that are open before it. -/
structure Step where
  offset : Nat
  stack : IndentStack
  chars : List Char

namespace Step

/-- The tokens of the line. -/
def tokens (step : Step) : List Token :=
  (line step.offset step.stack step.chars).1

/-- The columns that are open behind the line. -/
def opened (step : Step) : IndentStack :=
  (line step.offset step.stack step.chars).2.1

/-- What is to be reported of the line: that its column is stray. -/
def report? (step : Step) : Option LexError :=
  match column? step.chars with
  | some column =>
    if IsStray step.stack column then
      some ⟨invalidDedent column step.stack,
        TextRange.ofWidth step.offset (byteWidth (content step.chars))⟩
    else none
  | none => none

end Step

/-- The steps of a run of lines, the first of which starts at `offset`. -/
def stepsFrom (offset : Nat) (stack : IndentStack) : List (List Char) → List Step
  | [] => []
  | chars :: rows =>
    let step : Step := ⟨offset, stack, chars⟩
    step :: stepsFrom (offset + byteWidth chars) step.opened rows

/-- What one step does: the columns that it finds are in order, it writes a mark for each
column that it opens or closes, and unless it is reported or has no column, behind it the
columns to the left of its own are open and its own is the deepest. -/
structure Step.Settles (step : Step) : Prop where
  wellFormed : step.stack.WellFormed
  marks : (step.tokens.filter (·.kind.isSynthetic)).map Token.kind =
    List.replicate (step.opened.size - step.stack.size) .indent ++
      List.replicate (step.stack.size - step.opened.size) .dedent
  unchanged : step.report? ≠ none ∨ column? step.chars = none → step.opened = step.stack
  settled : ∀ column, step.report? = none → column? step.chars = some column →
    step.opened.levels = step.stack.levels.filter (· < column) ++ [column] ∧
      step.opened.current = column

section Line

variable {offset : Nat} {stack : IndentStack} {chars : List Char}

/-- A line that has no column takes no part in the layout. -/
theorem line_of_blank (h : column? chars = none) :
    line offset stack chars = (blankLineTokens offset chars, stack, []) := by
  unfold column? at h
  extract_lets content blanks rest at h
  split at h
  · rename_i hblank
    exact if_pos hblank
  · cases h

/-- A line that has a column is its blanks, the marks of its shift, and what is scanned
behind the blanks. -/
theorem line_of_filled (offset : Nat) (stack : IndentStack) {column : Nat}
    (h : column? chars = some column) :
    ∃ blanks behind, chars = blanks ++ behind ∧ (∀ c ∈ blanks, Scan.isBlank c = true) ∧
      behind ≠ [] ∧ line offset stack chars =
        let shifted := shift stack column (offset + byteWidth blanks)
          (TextRange.ofWidth offset (byteWidth (content chars)))
        (leadingBlanks offset blanks ++ shifted.marks ++
            Scan.scan (offset + byteWidth blanks) behind,
          shifted.stack, shifted.errors) := by
  unfold column? at h
  extract_lets found blanks rest at h
  split at h
  · cases h
  · rename_i hfilled
    obtain rfl := Option.some.inj h
    have hchars : chars = blanks ++ chars.drop blanks.length := by
      obtain ⟨behind, hbehind⟩ := blanks_isPrefix chars
      rw [← hbehind, List.drop_left]
    refine ⟨blanks, chars.drop blanks.length, hchars, fun c => List.mem_takeWhile_imp,
      fun hnil => hfilled (.inl ?_), if_neg hfilled⟩
    -- the content is no longer than the line
    have hprefix : rest <+: chars.drop blanks.length := (content_isPrefix chars).drop _
    rw [hnil] at hprefix
    exact List.prefix_nil.mp hprefix

/-- No token is a mark. -/
def Unmarked (tokens : List Token) : Prop :=
  ∀ t ∈ tokens, t.kind.isSynthetic = false

theorem unmarked_blankLineTokens (offset : Nat) (chars : List Char) :
    Unmarked (blankLineTokens offset chars) := by
  intro t ht
  obtain ⟨scanned, hscanned, rfl⟩ := List.mem_map.mp ht
  split
  · rfl
  · exact (Scan.of_mem_scan hscanned).2

theorem kind_ne_newline_of_mem_blankLine {offset : Nat} {chars : List Char} {t : Token}
    (h : t ∈ blankLineTokens offset chars) : t.kind ≠ .newline := by
  obtain ⟨scanned, -, rfl⟩ := List.mem_map.mp h
  split
  · exact fun hkind => by cases hkind
  · assumption

theorem isLayout_of_mem_blankLine {offset : Nat} {chars : List Char} {t : Token}
    (h : t ∈ blankLineTokens offset chars) : t.kind.isLayout = false := by
  have hmark := unmarked_blankLineTokens _ _ t h
  have hnewline := kind_ne_newline_of_mem_blankLine h
  revert hmark hnewline
  cases t.kind <;> simp [SyntaxKind.isLayout, SyntaxKind.isSynthetic]

theorem unmarked_leadingBlanks (offset : Nat) (blanks : List Char) :
    Unmarked (leadingBlanks offset blanks) := by
  unfold leadingBlanks
  split
  · exact List.forall_mem_nil _
  · exact List.forall_mem_singleton.mpr rfl

theorem unmarked_scan (offset : Nat) (chars : List Char) : Unmarked (Scan.scan offset chars) :=
  fun _ ht => (Scan.of_mem_scan ht).2

@[simp] theorem marksBetween_self (stack : IndentStack) (anchor : Nat) :
    marksBetween stack stack anchor = [] := by
  simp [marksBetween]

end Line

namespace Step

variable {step : Step}

/-- The columns behind a step: those before it, or the ones that its column settles. -/
theorem opened_cases (hstack : step.stack.WellFormed) :
    (column? step.chars = none ∧ step.report? = none ∧ step.opened = step.stack) ∨
      ∃ column, column? step.chars = some column ∧
        (step.report? ≠ none ∧ step.opened = step.stack ∨
          step.report? = none ∧ step.opened = step.stack.settle column) := by
  unfold report? opened
  cases hcolumn : column? step.chars with
  | none => exact .inl ⟨rfl, rfl, by rw [line_of_blank hcolumn]⟩
  | some column =>
      obtain ⟨blanks, behind, -, -, hbehind, hline⟩ :=
        line_of_filled step.offset step.stack hcolumn
      refine .inr ⟨column, rfl, ?_⟩
      rw [hline]
      by_cases hstray : IsStray step.stack column
      · simp [hstray, shift_of_isStray _ _ hstray]
      · simp [hstray, shift_of_not_isStray _ _ hstack hstray]

theorem reports_eq (hstack : step.stack.WellFormed) :
    (line step.offset step.stack step.chars).2.2 = step.report?.toList := by
  unfold report?
  cases hcolumn : column? step.chars with
  | none => rw [line_of_blank hcolumn]; rfl
  | some column =>
      obtain ⟨blanks, behind, -, -, hbehind, hline⟩ :=
        line_of_filled step.offset step.stack hcolumn
      rw [hline]
      by_cases hstray : IsStray step.stack column
      · simp [hstray, shift_of_isStray _ _ hstray]
      · simp [hstray, shift_of_not_isStray _ _ hstack hstray]

/-- The tokens of a line that has a column: its blanks, one mark for each column that is opened
or closed, and what is scanned behind the blanks. -/
theorem tokens_of_filled (hstack : step.stack.WellFormed) {column : Nat}
    (hcolumn : column? step.chars = some column) :
    ∃ blanks behind, step.chars = blanks ++ behind ∧
      (∀ c ∈ blanks, Scan.isBlank c = true) ∧ behind ≠ [] ∧
      step.tokens = leadingBlanks step.offset blanks ++
        (marksBetween step.stack step.opened (step.offset + byteWidth blanks) ++
          Scan.scan (step.offset + byteWidth blanks) behind) := by
  obtain ⟨blanks, behind, hchars, hblanks, hbehind, hline⟩ :=
    line_of_filled step.offset step.stack hcolumn
  refine ⟨blanks, behind, hchars, hblanks, hbehind, ?_⟩
  unfold tokens opened
  rw [hline]
  by_cases hstray : IsStray step.stack column
  · simp [shift_of_isStray _ _ hstray]
  · simp [shift_of_not_isStray _ _ hstack hstray]

/-- The marks stand in one place, one for each column that is opened or closed, and something
stands behind them. -/
theorem exists_tokens_eq (hstack : step.stack.WellFormed) :
    ∃ front anchor behind, Unmarked front ∧ Unmarked behind ∧
      (marksBetween step.stack step.opened anchor = [] ∨ behind ≠ []) ∧
      step.tokens = front ++ marksBetween step.stack step.opened anchor ++ behind := by
  cases hcolumn : column? step.chars with
  | none =>
      refine ⟨blankLineTokens step.offset step.chars, 0, [], unmarked_blankLineTokens _ _,
        List.forall_mem_nil _, .inl ?_, ?_⟩ <;> simp [tokens, opened, line_of_blank hcolumn]
  | some column =>
      obtain ⟨blanks, behind, -, -, hbehind, htokens⟩ := tokens_of_filled hstack hcolumn
      have hscan : Scan.scan (step.offset + byteWidth blanks) behind ≠ [] := by
        intro hnil
        have hchars := Scan.flatMap_scan (step.offset + byteWidth blanks) behind
        rw [hnil] at hchars
        exact hbehind hchars.symm
      refine ⟨leadingBlanks step.offset blanks, step.offset + byteWidth blanks,
        Scan.scan (step.offset + byteWidth blanks) behind,
        unmarked_leadingBlanks _ _, unmarked_scan _ _, .inr hscan, ?_⟩
      rw [htokens, List.append_assoc]

theorem wellFormed_opened (hstack : step.stack.WellFormed) : step.opened.WellFormed := by
  rcases opened_cases hstack with ⟨-, -, heq⟩ | ⟨column, -, ⟨-, heq⟩ | ⟨-, heq⟩⟩
  · rwa [heq]
  · rwa [heq]
  · rw [heq]
    exact hstack.settle column

theorem balances_marks {before behind : IndentStack} (hbefore : before.WellFormed)
    (hbehind : behind.WellFormed) (anchor : Nat) :
    Balances (before.size - 1) (marksBetween before behind anchor) (behind.size - 1) := by
  have hpos := hbefore.size_pos
  have hpos' := hbehind.size_pos
  have hindents := Balances.indents (before.size - 1) (behind.size - before.size) anchor
  have hdedents := Balances.dedents (behind.size - 1) (before.size - behind.size) anchor
  have hmiddle : before.size - 1 + (behind.size - before.size) =
      behind.size - 1 + (before.size - behind.size) := by omega
  rw [← hmiddle] at hdedents
  exact hindents.append hdedents

theorem balances (hstack : step.stack.WellFormed) :
    Balances (step.stack.size - 1) step.tokens (step.opened.size - 1) := by
  obtain ⟨front, anchor, behind, hfront, hbehind, -, heq⟩ := exists_tokens_eq hstack
  have hmarks := balances_marks hstack (wellFormed_opened hstack) anchor
  rw [heq]
  exact ((Balances.plain hfront _).append hmarks).append (Balances.plain hbehind _)

/-- No line ends in a mark. -/
theorem isSynthetic_getLast? (hstack : step.stack.WellFormed) :
    ∀ t ∈ step.tokens.getLast?, t.kind.isSynthetic = false := by
  obtain ⟨front, anchor, behind, hfront, hbehind, hmarks, heq⟩ := exists_tokens_eq hstack
  intro t ht
  rw [heq] at ht
  cases behind with
  | nil =>
      rw [hmarks.resolve_right (fun h => h rfl), List.append_nil, List.append_nil] at ht
      exact hfront t (List.mem_of_getLast? ht)
  | cons first behind =>
      rw [List.getLast?_append_cons] at ht
      exact hbehind t (List.mem_of_getLast? ht)

theorem settles (hstack : step.stack.WellFormed) : step.Settles where
  wellFormed := hstack
  marks := by
    obtain ⟨front, anchor, behind, hfront, hbehind, -, heq⟩ := exists_tokens_eq hstack
    have hnone : ∀ {tokens : List Token}, Unmarked tokens →
        tokens.filter (·.kind.isSynthetic) = [] :=
      fun h => List.filter_eq_nil_iff.mpr fun t ht => by simp [h t ht]
    rw [heq, List.filter_append, List.filter_append, hnone hfront, hnone hbehind]
    simp [marksBetween, mark, SyntaxKind.isSynthetic]
  unchanged := by
    intro h
    rcases opened_cases hstack with ⟨-, -, heq⟩ | ⟨column, hcolumn, ⟨-, heq⟩ | ⟨hnone, -⟩⟩
    · exact heq
    · exact heq
    · rcases h with h | h
      · exact absurd hnone h
      · rw [h] at hcolumn
        cases hcolumn
  settled := by
    intro column hreport hcolumn
    rcases opened_cases hstack with ⟨hnone, -⟩ | ⟨found, hfound, ⟨hreported, -⟩ | ⟨-, heq⟩⟩
    · rw [hnone] at hcolumn
      cases hcolumn
    · exact absurd hreport hreported
    · obtain rfl : found = column := Option.some.inj (hfound.symm.trans hcolumn)
      rw [heq]
      exact ⟨IndentStack.levels_settle _ _, IndentStack.current_settle _ _⟩

end Step

/-- What a run of lines adds, read off its steps. -/
theorem lines_eq_steps (offset : Nat) {stack : IndentStack} (rows : List (List Char))
    (hstack : stack.WellFormed) :
    (lines offset stack rows).1 =
      ⟨(stepsFrom offset stack rows).flatMap Step.tokens,
        (stepsFrom offset stack rows).filterMap Step.report?⟩ := by
  induction rows generalizing offset stack with
  | nil => rfl
  | cons chars rows ih =>
      have hopened := @Step.wellFormed_opened ⟨offset, stack, chars⟩ hstack
      have hreports := @Step.reports_eq ⟨offset, stack, chars⟩ hstack
      have hbehind := ih (offset + byteWidth chars) hopened
      rw [lines, stepsFrom]
      dsimp only [Step.opened] at hbehind hreports ⊢
      rw [hbehind, hreports, List.filterMap_cons, List.flatMap_cons]
      cases Step.report? ⟨offset, stack, chars⟩ <;> rfl

/-- The invariant of a run: every step settles, the columns behind the last line are in
order, the marks balance, and the last token is none. -/
structure Run (stack : IndentStack) (steps : List Step) (stream : TokenStream)
    (final : IndentStack) : Prop where
  settles : ∀ step ∈ steps, step.Settles
  wellFormed : final.WellFormed
  balances : Balances (stack.size - 1) stream.tokens (final.size - 1)
  last : ∀ t ∈ stream.tokens.getLast?, t.kind.isSynthetic = false

theorem run_lines (offset : Nat) {stack : IndentStack} (rows : List (List Char))
    (hstack : stack.WellFormed) :
    Run stack (stepsFrom offset stack rows) (lines offset stack rows).1
      (lines offset stack rows).2 := by
  induction rows generalizing offset stack with
  | nil =>
      exact ⟨List.forall_mem_nil _, hstack, Balances.plain (List.forall_mem_nil _) _,
        fun _ ht => by cases ht⟩
  | cons chars rows ih =>
      let step : Step := ⟨offset, stack, chars⟩
      obtain ⟨hsettles, hfinal, hbalances, hlast⟩ :=
        ih (offset + byteWidth chars) (@Step.wellFormed_opened step hstack)
      rw [lines, stepsFrom]
      refine ⟨List.forall_mem_cons.mpr ⟨Step.settles hstack, hsettles⟩, hfinal,
        (@Step.balances step hstack).append hbalances, ?_⟩
      intro t ht
      rw [List.getLast?_append] at ht
      rcases Option.or_eq_some_iff.mp ht with ht | ⟨-, ht⟩
      · exact hlast t ht
      · exact @Step.isSynthetic_getLast? step hstack t ht

end Layout

open Nesting in
/-- The marks of every text open and close blocks as brackets do, one mark for each column
that a line opens or closes; in completion mode those are missing that close what is open
behind the last line.  The columns that are open at a line increase from the base column on,
and a line is reported if and only if it goes back to a column that is not one of them. -/
theorem tokenize_columns (text : String) :
    let rows := Layout.splitLines text.toList
    let steps := Layout.stepsFrom 0 IndentStack.fresh rows
    let final := (Layout.lines 0 IndentStack.fresh rows).2
    let closed := (tokenize false text).tokens
    let unclosed := (tokenize true text).tokens
    (∀ completion before, before <+: (tokenize completion text).tokens →
        count .dedent before ≤ count .indent before) ∧
      count .dedent closed = count .indent closed ∧
      closed = unclosed ++
        List.replicate (final.size - 1) (Layout.mark .dedent (byteWidth text.toList)) ∧
      (∀ t ∈ unclosed.getLast?, t.kind ≠ .dedent) ∧
      final.WellFormed ∧
      unclosed = steps.flatMap Layout.Step.tokens ∧
      (∀ step ∈ steps, step.Settles) ∧
      ∀ completion, (tokenize completion text).errors = steps.filterMap Layout.Step.report? := by
  intro rows steps final closed unclosed
  have hstack := IndentStack.wellFormed_fresh
  obtain ⟨hsettles, hfinal, hbalances, hlast⟩ := Layout.run_lines 0 rows hstack
  have hlines := Layout.lines_eq_steps 0 rows hstack
  have hunclosed : unclosed = (Layout.lines 0 IndentStack.fresh rows).1.tokens :=
    List.append_nil _
  have hclosed : closed = unclosed ++
      List.replicate (final.size - 1) (Layout.mark .dedent (byteWidth text.toList)) := by
    rw [hunclosed]
    rfl
  have hopen : Balances 0 unclosed (final.size - 1) := by
    rw [hunclosed]
    exact hbalances
  have hall : Balances 0 closed 0 := by
    have hdedents := Balances.dedents 0 (final.size - 1) (byteWidth text.toList)
    rw [Nat.zero_add] at hdedents
    rw [hclosed]
    exact hopen.append hdedents
  refine ⟨?_, by simpa using hall.settled.symm, hclosed, ?_, hfinal, ?_, hsettles, ?_⟩
  · intro completion before hbefore
    rw [← Nat.zero_add (count .indent before)]
    cases completion with
    | true => exact hopen.within before hbefore
    | false => exact hall.within before hbefore
  · intro t ht hdedent
    rw [hunclosed] at ht
    have hplain := hlast t ht
    rw [hdedent] at hplain
    cases hplain
  · rw [hunclosed, hlines]
  · intro completion
    exact congrArg TokenStream.errors hlines

end ModelWorkspace
