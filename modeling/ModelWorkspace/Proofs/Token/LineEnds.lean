import ModelWorkspace.Proofs.Token.Places

/-!
# Characters in front of a line end

A line ends in a line feed, with a carriage return in front of it or without one.  What stands
in front of a line end is scanned as if nothing were behind it, unless the last character takes
part of the line end with it: a carriage return does, and so does a backslash in front of a
carriage return (`scan_lineEnd`).  So the line end is one token more of its line, whichever of
the two it is (`line_lineEnd`).
-/

namespace ModelWorkspace

namespace Scan

/-- The two line ends. -/
def IsLineEnding (ending : List Char) : Prop :=
  ending = ['\n'] ∨ ending = ['\r', '\n']

/-- The last of the characters takes nothing of the line end with it. -/
def Apart (ending cs : List Char) : Prop :=
  ∀ c ∈ cs.getLast?, c ≠ '\r' ∧ (c = '\\' → ending = ['\n'])

variable {c : Char} {cs ending : List Char}

theorem Apart.drop (h : Apart ending cs) (n : Nat) : Apart ending (cs.drop n) := by
  intro c hc
  rw [List.getLast?_drop] at hc
  split at hc
  · cases hc
  · exact h c hc

theorem Apart.tail (h : Apart ending (c :: cs)) : Apart ending cs :=
  h.drop 1

theorem Apart.ne_return (h : Apart ending (c :: cs)) (hnil : cs = []) : c ≠ '\r' := by
  subst hnil
  exact (h c rfl).1

theorem Apart.newline (h : Apart ending cs) : Apart ['\n'] cs :=
  fun c hc => ⟨(h c hc).1, fun _ => rfl⟩

theorem runLength_le (p : Char → Bool) (cs : List Char) : runLength p cs ≤ cs.length :=
  (List.takeWhile_prefix p).length_le

/-- An exponent does not go on into characters that begin with neither a digit nor a sign. -/
theorem exponentLength_append {front behind : List Char} (hfront : front ≠ [])
    (h : ∀ c ∈ behind.head?, c.isDigit = false ∧ c ≠ '+' ∧ c ≠ '-') :
    exponentLength (front ++ behind) = exponentLength front := by
  obtain ⟨mark, front, rfl⟩ := List.exists_cons_of_ne_nil hfront
  have hdigit : ∀ c ∈ behind.head?, c.isDigit = false := fun c hc => (h c hc).1
  unfold exponentLength
  cases front with
  | nil =>
      cases behind with
      | nil => rfl
      | cons c more =>
          obtain ⟨hdigit, hplus, hminus⟩ := h c rfl
          simp [runLength, hdigit, hplus, hminus]
  | cons c front =>
      have hdigits : ∀ n ≤ (c :: front).length, runLength Char.isDigit
          ((c :: (front ++ behind)).drop n) = runLength Char.isDigit ((c :: front).drop n) := by
        intro n hn
        rw [← List.cons_append, List.drop_append_of_le_length hn]
        exact Layout.runLength_append hdigit _
      dsimp only [List.cons_append]
      split
      · rw [hdigits _ (by split <;> simp)]
      · rfl

namespace IsLineEnding

theorem runLength (hending : IsLineEnding ending) {p : Char → Bool} (hnewline : p '\n' = false)
    (hreturn : p '\r' = false) (cs : List Char) :
    runLength p (cs ++ ending) = runLength p cs := by
  refine Layout.runLength_append ?_ cs
  rcases hending with rfl | rfl <;> simp [hnewline, hreturn]

theorem exponentLength (hending : IsLineEnding ending) (cs : List Char) :
    exponentLength (cs ++ ending) = exponentLength cs := by
  cases cs with
  | nil => rcases hending with rfl | rfl <;> rfl
  | cons mark cs =>
      refine exponentLength_append (List.cons_ne_nil mark cs) fun c hc => ?_
      rcases hending with rfl | rfl <;> cases hc <;> decide

theorem fractionLength (hending : IsLineEnding ending) (cs : List Char) :
    fractionLength (cs ++ ending) = fractionLength cs := by
  cases cs with
  | nil => rcases hending with rfl | rfl <;> rfl
  | cons c cs =>
      by_cases hc : c = '.'
      · subst hc
        simp only [List.cons_append, Scan.fractionLength]
        rw [hending.runLength (p := Char.isDigit) rfl rfl,
          List.drop_append_of_le_length (runLength_le _ _),
          hending.exponentLength]
      · rw [List.cons_append]
        simp [Scan.fractionLength, hc]

theorem stringLength (hending : IsLineEnding ending) (h : Apart ending cs) :
    stringLength (cs ++ ending) = stringLength cs := by
  fun_induction Scan.stringLength cs with
  | case1 => rcases hending with rfl | rfl <;> rfl
  | case2 cs => rfl
  | case3 => simp [Scan.stringLength]
  | case4 c cs hc length closed heq ih => simp [Scan.stringLength, hc, ih h.tail.tail, heq]
  | case5 c cs hquote hescape hc =>
      -- a backslash at the end has a line feed behind it
      rcases hc with rfl | rfl | rfl
      · cases cs with
        | nil => rw [(h '\\' rfl).2 rfl]; rfl
        | cons c cs => exact absurd rfl (hescape c cs rfl)
      · simp [Scan.stringLength]
      · simp [Scan.stringLength]
  | case6 c cs hquote hescape hc length closed heq ih =>
      rw [List.cons_append, Scan.stringLength, ih h.tail, heq]
      · exact if_neg hc
      · exact hquote
      · exact fun _ _ hbackslash _ => hc (.inl hbackslash)

end IsLineEnding

/-- What begins a token does not look at the line end behind it. -/
theorem lexeme_lineEnd (hending : IsLineEnding ending) (h : Apart ending (c :: cs)) :
    lexeme c (cs ++ ending) = lexeme c cs := by
  by_cases hc : c = '\r'
  · obtain ⟨d, more, rfl⟩ := List.exists_cons_of_ne_nil fun hnil => h.ne_return hnil hc
    subst hc
    rfl
  · have hdigits : (cs ++ ending).drop (runLength Char.isDigit cs) =
        cs.drop (runLength Char.isDigit cs) ++ ending :=
      List.drop_append_of_le_length (runLength_le _ cs)
    have hfraction := hending.fractionLength (c :: cs)
    rw [List.cons_append] at hfraction
    unfold lexeme
    simp only [if_neg hc, hending.runLength (p := isBlank) rfl rfl,
      hending.runLength (p := isCommentPart) rfl rfl,
      hending.runLength (p := isNamePart) rfl rfl, hending.runLength (p := Char.isDigit) rfl rfl,
      hdigits, hending.fractionLength, hfraction, hending.stringLength h.tail]

/-- A token does not reach over the end of its line. -/
theorem lexeme_le (h : Apart ending (c :: cs)) : (lexeme c cs).2 ≤ cs.length := by
  rw [← lexeme_lineEnd (.inl rfl) h.newline]
  by_contra hlt
  by_cases hnewline : (lexeme c (cs ++ ['\n'])).1 = .newline
  · rcases kind_eq_newline hnewline with ⟨-, hmore⟩ | ⟨hc, hmore, -⟩
    · omega
    · have hpos : cs.length ≠ 0 := fun hnil => h.ne_return (List.length_eq_zero_iff.mp hnil) hc
      omega
  · -- the line end would be part of the token
    refine notMem_lexeme hnewline (List.mem_cons_of_mem _ ?_)
    rw [List.take_of_length_le (by rw [List.length_append, List.length_singleton]; omega)]
    exact List.mem_append_right _ (List.mem_singleton.mpr rfl)

/-- A line end is one token. -/
theorem scan_ending (hending : IsLineEnding ending) (offset : Nat) :
    scan offset ending = [⟨.newline, ending, offset⟩] := by
  rcases hending with rfl | rfl <;> simp [scan, lexeme, isBlank]

/-- A line end is scanned behind the characters in front of it. -/
theorem scan_lineEnd (hending : IsLineEnding ending) (offset : Nat) (h : Apart ending cs) :
    scan offset (cs ++ ending) =
      scan offset cs ++ [⟨.newline, ending, offset + byteWidth cs⟩] := by
  fun_induction scan offset cs with
  | case1 offset =>
      rw [List.nil_append, scan_ending hending]
      rfl
  | case2 offset c cs kind more hlexeme token ih =>
      have hle : more ≤ cs.length := by
        have hle := lexeme_le h
        rwa [hlexeme] at hle
      have hwidth : offset + token.width + byteWidth (cs.drop more) =
          offset + byteWidth (c :: cs) := by
        rw [Nat.add_assoc, Token.width, ← byteWidth_append, List.cons_append,
          List.take_append_drop]
      rw [List.cons_append, scan, lexeme_lineEnd hending h, hlexeme]
      dsimp only
      rw [List.take_append_of_le_length hle, List.drop_append_of_le_length hle, List.cons_append,
        ← hwidth]
      exact congrArg _ (ih (h.tail.drop more))

end Scan

namespace Layout

open Scan

variable {row ending : List Char}

theorem content_lineEnd (hending : IsLineEnding ending) (row : List Char) :
    content (row ++ ending) = content row := by
  rcases hending with rfl | rfl
  · exact List.rdropWhile_concat_pos isLineEnd row '\n' rfl
  · rw [List.append_cons]
    exact (List.rdropWhile_concat_pos isLineEnd (row ++ ['\r']) '\n' rfl).trans
      (List.rdropWhile_concat_pos isLineEnd row '\r' rfl)

/-- A line end behind a row is one token more: blank space if the line is blank. -/
theorem line_lineEnd (hending : IsLineEnding ending) (offset : Nat) (stack : IndentStack)
    (h : Apart ending row) :
    ∃ last : Token, last.kind = (if column? row = none then .whitespace else .newline) ∧
      line offset stack (row ++ ending) =
        ((line offset stack row).1 ++ [last], (line offset stack row).2) := by
  unfold line column?
  rw [content_lineEnd hending]
  extract_lets content blanks rest anchor shifted
  by_cases hblank : rest = [] ∨ rest.head? = some '#'
  · refine ⟨⟨.whitespace, ending, offset + byteWidth row⟩, by simp [hblank], ?_⟩
    rw [if_pos hblank, if_pos hblank, blankLineTokens, scan_lineEnd hending offset h,
      List.map_append]
    rfl
  · have hle : blanks.length ≤ row.length := (blanks_isPrefix row).length_le
    refine ⟨⟨.newline, ending, anchor + byteWidth (row.drop blanks.length)⟩,
      by simp [hblank], ?_⟩
    rw [if_neg hblank, if_neg hblank, List.drop_append_of_le_length hle,
      scan_lineEnd hending anchor (h.drop blanks.length)]
    simp only [List.append_assoc]

end Layout
end ModelWorkspace
