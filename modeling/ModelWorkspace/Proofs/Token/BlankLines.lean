import ModelWorkspace.Proofs.Token.Rows

/-!
# Blank lines are not seen

A line that is blank or holds a comment only has nothing but trivia for tokens, and leaves
the open columns alone.  Inserted at the front of any row of any text, it moves what is
behind it and does nothing else: the tokens are alike (`alike_insert`), and the reports on
indentation say the same (`messages_insert`).
-/

namespace ModelWorkspace

namespace Layout

open Scan

/-- A whole line that is blank or holds a comment only: blanks, a comment that may be
missing, and a line end. -/
def IsBlankLine (row : List Char) : Prop :=
  ∃ blanks comment ending, row = blanks ++ (comment ++ ending) ∧
    (∀ c ∈ blanks, isBlank c = true) ∧
    (comment = [] ∨ ∃ behind, comment = '#' :: behind ∧ ∀ c ∈ behind, isCommentPart c = true) ∧
    (ending = ['\n'] ∨ ending = ['\r', '\n'])

/-- As a blank line, the characters are trivia. -/
def Blank (cs : List Char) : Prop :=
  ∀ offset, ∀ t ∈ blankLineTokens offset cs, t.kind.isTrivia = true

theorem blank_nil : Blank [] := by
  intro offset
  rw [blankLineTokens, scan]
  exact List.forall_mem_nil _

theorem blank_cons {c : Char} {cs : List Char}
    (h : (lexeme c cs).1.isTrivia = true ∨ (lexeme c cs).1 = .newline)
    (hbehind : Blank (cs.drop (lexeme c cs).2)) : Blank (c :: cs) := by
  intro offset
  obtain ⟨t, hkind, behind, heq⟩ := blankLineTokens_cons offset c cs
  rw [heq]
  refine List.forall_mem_cons.mpr ⟨?_, hbehind behind⟩
  rw [hkind]
  split
  · rfl
  · rename_i hnewline
    exact h.resolve_right hnewline

theorem blank_lineEnd {ending : List Char} (h : ending = ['\n'] ∨ ending = ['\r', '\n']) :
    Blank ending := by
  rcases h with rfl | rfl
  · exact blank_cons (.inr rfl) blank_nil
  · exact blank_cons (.inr rfl) blank_nil

/-- The characters of a class make one token of trivia, up to one that is not of it. -/
theorem blank_run {p : Char → Bool} {c : Char} {run behind : List Char}
    (hkind : ∀ cs, (lexeme c cs).1.isTrivia = true ∧ (lexeme c cs).2 = runLength p cs)
    (hrun : ∀ c ∈ run, p c = true) (hhead : ∀ c, behind.head? = some c → p c = false)
    (hbehind : Blank behind) : Blank (c :: (run ++ behind)) := by
  have hrest : behind.dropWhile p = behind := by
    cases behind with
    | nil => rfl
    | cons b behind => simp [hhead b rfl]
  refine blank_cons (.inl (hkind _).1) ?_
  rwa [(hkind _).2, drop_runLength, List.dropWhile_append_of_pos hrun, hrest]

theorem content_append {body ends : List Char} (hbody : ∀ c ∈ body, isLineEnd c = false)
    (hends : ∀ c ∈ ends, isLineEnd c = true) : content (body ++ ends) = body := by
  have hkeep : body.reverse.dropWhile isLineEnd = body.reverse := by
    cases hreverse : body.reverse with
    | nil => rfl
    | cons c front =>
        have hc := hbody c (List.mem_reverse.mp (hreverse ▸ List.mem_cons_self))
        exact List.dropWhile_cons_of_neg (by simp [hc])
  rw [content, List.reverse_append,
    List.dropWhile_append_of_pos fun c hc => hends c (List.mem_reverse.mp hc), hkeep,
    List.reverse_reverse]

namespace IsBlankLine

variable {row : List Char}

theorem head?_lineEnd {ending : List Char} (h : ending = ['\n'] ∨ ending = ['\r', '\n']) :
    ∃ c, ending.head? = some c ∧ isLineEnd c = true := by
  rcases h with rfl | rfl
  · exact ⟨_, rfl, rfl⟩
  · exact ⟨_, rfl, rfl⟩

theorem blank (h : IsBlankLine row) : Blank row := by
  obtain ⟨blanks, comment, ending, rfl, hblanks, hcomment, hending⟩ := h
  have hends := blank_lineEnd hending
  obtain ⟨first, hfirst, hline⟩ := head?_lineEnd hending
  have hrest : Blank (comment ++ ending) := by
    rcases hcomment with rfl | ⟨behind, rfl, hbehind⟩
    · exact hends
    · refine blank_run (fun _ => ⟨rfl, rfl⟩) hbehind ?_ hends
      intro c hc
      obtain rfl := Option.some.inj (hfirst.symm.trans hc)
      rw [isCommentPart_eq, hline]
      rfl
  cases blanks with
  | nil => exact hrest
  | cons b blanks =>
      obtain ⟨hb, hblanks⟩ := List.forall_mem_cons.mp hblanks
      have hkind : ∀ cs, lexeme b cs = (.whitespace, runLength isBlank cs) := by
        intro cs
        simp [lexeme, hb]
      refine blank_run (fun cs => by rw [hkind]; exact ⟨rfl, rfl⟩) hblanks ?_ hrest
      -- neither a comment nor a line end begins with a blank
      intro c hc
      rcases hcomment with rfl | ⟨behind, rfl, -⟩
      · obtain rfl := Option.some.inj (hfirst.symm.trans hc)
        exact isBlank_of_isLineEnd hline
      · obtain rfl : '#' = c := Option.some.inj hc
        rfl

theorem endsLine (h : IsBlankLine row) : EndsLine row := by
  obtain ⟨blanks, comment, ending, rfl, hblanks, hcomment, hending⟩ := h
  have hfront : '\n' ∉ blanks ++ comment := by
    rw [List.mem_append]
    rintro (hmem | hmem)
    · cases hblanks _ hmem
    · rcases hcomment with rfl | ⟨behind, rfl, hbehind⟩
      · cases hmem
      · rcases List.mem_cons.mp hmem with heq | hmem
        · cases heq
        · cases hbehind _ hmem
  rw [← List.append_assoc]
  rcases hending with rfl | rfl
  · exact ⟨_, rfl, hfront⟩
  · refine ⟨blanks ++ comment ++ ['\r'], by simp, ?_⟩
    rw [List.mem_append]
    exact not_or.mpr ⟨hfront, by decide⟩

theorem column?_eq_none (h : IsBlankLine row) : column? row = none := by
  obtain ⟨blanks, comment, ending, rfl, hblanks, hcomment, hending⟩ := h
  have hbody : ∀ c ∈ blanks ++ comment, isLineEnd c = false := by
    refine List.forall_mem_append.mpr ⟨fun c hc => ?_, ?_⟩
    · by_contra hend
      have hblank := isBlank_of_isLineEnd (Bool.of_not_eq_false hend)
      rw [hblanks c hc] at hblank
      cases hblank
    · rcases hcomment with rfl | ⟨behind, rfl, hbehind⟩
      · exact List.forall_mem_nil _
      · refine List.forall_mem_cons.mpr ⟨rfl, fun c hc => ?_⟩
        simpa [isCommentPart_eq] using hbehind c hc
  have hends : ∀ c ∈ ending, isLineEnd c = true := by
    rcases hending with rfl | rfl <;> simp [isLineEnd]
  have hcomment' : comment.takeWhile isBlank = [] := by
    rcases hcomment with rfl | ⟨behind, rfl, -⟩ <;> rfl
  unfold column?
  rw [← List.append_assoc, content_append hbody hends]
  dsimp only
  rw [List.takeWhile_append_of_pos hblanks, hcomment', List.append_nil, List.drop_left]
  rcases hcomment with rfl | ⟨behind, rfl, -⟩ <;> simp

end IsBlankLine

end Layout

namespace Sign

variable {ts : List Token}

theorem before_eq_nil (h : ∀ t ∈ ts, t.kind.isTrivia = true) (next : Option SyntaxKind) :
    before next ts = [] := by
  induction ts with
  | nil => rfl
  | cons t ts ih =>
      obtain ⟨ht, hts⟩ := List.forall_mem_cons.mp h
      rw [before_trivia ht, ih hts]

end Sign

namespace Layout

variable {row : List Char}

/-- A blank line adds its own tokens, and leaves the open columns alone. -/
theorem IsBlankLine.lines (h : IsBlankLine row) (offset : Nat) (stack : IndentStack)
    (rows : List (List Char)) :
    lines offset stack (row :: rows) =
      let behind := lines (offset + byteWidth row) stack rows
      (⟨blankLineTokens offset row ++ behind.1.tokens, behind.1.errors⟩, behind.2) := by
  rw [Layout.lines, line_of_blank h.column?_eq_none]
  rfl

theorem IsBlankLine.signs (h : IsBlankLine row) (offset anchor : Nat) (stack : IndentStack)
    (rows : List (List Char)) :
    Sign.ofTokens (closedLines offset stack (row :: rows) anchor) =
      Sign.ofTokens (closedLines (offset + byteWidth row) stack rows anchor) := by
  rw [closedLines, h.lines, closedLines]
  dsimp only
  rw [List.append_assoc, Sign.ofTokens, Sign.before_append, Sign.before_eq_nil (h.blank offset)]
  rfl

theorem IsBlankLine.splitLines (h : IsBlankLine row) (behind : List Char) :
    splitLines (row ++ behind) = row :: splitLines behind := by
  obtain ⟨body, hbody, -⟩ := h.endsLine
  have hne : row ≠ [] := by
    rw [hbody]
    exact List.append_ne_nil_of_right_ne_nil _ (List.cons_ne_nil _ _)
  rw [splitLines_append (.inr (by rw [hbody, List.getLast?_concat])),
    splitLines_oneLine h.endsLine.oneLine hne, List.singleton_append]

end Layout

open Layout in
/-- Wherever a line that is blank or holds a comment only is inserted between the rows of a
text, and whatever its own indentation is, the tokens are alike and the reports on indentation
say the same. -/
theorem tokenize_insert {before line : String} (after : String)
    (hbefore : before.toList = [] ∨ before.toList.getLast? = some '\n')
    (hline : IsBlankLine line.toList) :
    let plain := tokenize false (before ++ after)
    let inserted := tokenize false (before ++ (line ++ after))
    Alike .same plain.tokens inserted.tokens ∧
      plain.errors.map LexError.message = inserted.errors.map LexError.message := by
  intro plain inserted
  have hends : ∀ row ∈ splitLines before.toList, Scan.EndsLine row :=
    fun row => endsLine_of_mem_splitLines hbefore
  have honeLine : ∀ row ∈ splitLines after.toList, Scan.OneLine row :=
    oneLine_of_mem_splitLines
  have hrows : splitLines (before ++ after).toList =
      splitLines before.toList ++ splitLines after.toList := by
    rw [String.toList_append, splitLines_append hbefore]
  have hrows' : splitLines (before ++ (line ++ after)).toList =
      splitLines before.toList ++ line.toList :: splitLines after.toList := by
    rw [String.toList_append, String.toList_append, splitLines_append hbefore,
      hline.splitLines]
  unfold plain inserted
  constructor
  · change Sign.ofTokens _ = Sign.ofTokens _
    rw [tokens_tokenize, tokens_tokenize, hrows, hrows', signs_append _ _ _ hends honeLine,
      signs_append _ _ _ hends (List.forall_mem_cons.mpr ⟨hline.endsLine.oneLine, honeLine⟩),
      hline.signs]
    exact congrArg _ (signs_closedLines _ _ _ _ _ _)
  · rw [errors_tokenize, errors_tokenize, hrows, hrows', lines_append, lines_append]
    dsimp only
    rw [hline.lines, List.map_append, List.map_append]
    exact congrArg _ (moved_lines _ _ _ _).2.2

end ModelWorkspace
