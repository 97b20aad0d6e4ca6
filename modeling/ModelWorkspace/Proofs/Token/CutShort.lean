import ModelWorkspace.Proofs.Token.FinalNewline

/-!
# Tokens of a text that is cut short

The tokens of a text do not look far ahead.  If something else that begins like a name is written
in the place of a name, and nothing behind it, the tokens in front of the name stay the same
(`tokenize_cutShort`): what ends before a name ends before another one, too, and the column of its
line was settled before.  What is written there must take no exponent where the name took none,
since a number may stand in front of it (`Scan.Replaces`).
-/

namespace ModelWorkspace

namespace Scan

/-- The characters begin a name. -/
def BeginsName (cs : List Char) : Prop :=
  ∃ c more, cs = c :: more ∧ isNameStart c = true

theorem isNameStart_ne {c d : Char} (h : isNameStart c = true) (hd : isNameStart d = false) :
    c ≠ d := by
  rintro rfl
  rw [h] at hd
  cases hd

theorem isNamePart_of_isNameStart {c : Char} (h : isNameStart c = true) : isNamePart c = true := by
  unfold isNameStart at h
  unfold isNamePart Char.isAlphanum
  rw [Bool.or_eq_true] at h ⊢
  rcases h with h | h
  · simp [h]
  · exact .inr h

theorem isDigit_of_isNameStart {c : Char} (h : isNameStart c = true) : c.isDigit = false := by
  simp only [isNameStart, Char.isAlpha, Char.isUpper, Char.isLower, Bool.or_eq_true,
    Bool.and_eq_true, decide_eq_true_eq, beq_iff_eq, ge_iff_le] at h
  by_contra hdigit
  simp only [Char.isDigit, Bool.not_eq_false, Bool.and_eq_true, decide_eq_true_eq] at hdigit
  rcases h with (h | h) | rfl
  · have := UInt32.le_iff_toNat_le.mp h.1
    have := UInt32.le_iff_toNat_le.mp hdigit.2
    simp at *
    omega
  · have := UInt32.le_iff_toNat_le.mp h.1
    have := UInt32.le_iff_toNat_le.mp hdigit.2
    simp at *
    omega
  · simp at hdigit

theorem isBlank_of_isNameStart {c : Char} (h : isNameStart c = true) : isBlank c = false := by
  have hspace := isNameStart_ne h (d := ' ') rfl
  have htab := isNameStart_ne h (d := '\t') rfl
  simp [isBlank, hspace, htab]

theorem isCommentPart_of_isNameStart {c : Char} (h : isNameStart c = true) :
    isCommentPart c = true := by
  have hreturn := isNameStart_ne h (d := '\r') rfl
  have hnewline := isNameStart_ne h (d := '\n') rfl
  simp [isCommentPart, hreturn, hnewline]

namespace BeginsName

variable {cs : List Char}

theorem ne_nil (h : BeginsName cs) : cs ≠ [] := by
  obtain ⟨c, more, rfl, -⟩ := h
  exact List.cons_ne_nil c more

theorem head? (h : BeginsName cs) {p : Char → Bool}
    (hp : ∀ c, isNameStart c = true → p c = false) : ∀ c ∈ cs.head?, p c = false := by
  obtain ⟨c, more, rfl, hc⟩ := h
  rintro d ⟨⟩
  exact hp c hc

theorem head?_ne (h : BeginsName cs) {d : Char} (hd : isNameStart d = false) :
    cs.head? ≠ some d := by
  obtain ⟨c, more, rfl, hc⟩ := h
  exact fun heq => isNameStart_ne hc hd (Option.some.inj heq)

/-- A run of a class without name starts ends before a name. -/
theorem runLength (h : BeginsName cs) {p : Char → Bool}
    (hp : ∀ c, isNameStart c = true → p c = false) (front : List Char) :
    runLength p (front ++ cs) = runLength p front :=
  Layout.runLength_append (h.head? hp) front

/-- An exponent that begins before a name ends before it. -/
theorem exponentLength (h : BeginsName cs) {front : List Char} (hfront : front ≠ []) :
    exponentLength (front ++ cs) = exponentLength front := by
  refine exponentLength_append hfront fun c hc => ?_
  exact ⟨h.head? (fun _ => isDigit_of_isNameStart) c hc, fun heq => h.head?_ne rfl (heq ▸ hc),
    fun heq => h.head?_ne rfl (heq ▸ hc)⟩

end BeginsName

/-- What begins a name, and may stand in front of the end of a text instead of what begins another
one: the one takes no exponent if the other one does not. -/
structure Replaces (ending behind : List Char) : Prop where
  begins : BeginsName behind
  begins' : BeginsName ending
  exponent : exponentLength behind = 0 → exponentLength ending = 0

section Replacing

variable {ending behind : List Char}

/-- No exponent goes on over the end of a line. -/
theorem Replaces.firstRow {first more : List Char} (h : Replaces ending (first ++ more))
    (hne : first ≠ []) (hends : more = [] ∨ first.getLast? = some '\n') :
    Replaces ending first := by
  obtain ⟨⟨c, behind, hcs, hc⟩, hbegins', hexponent⟩ := h
  obtain ⟨d, rest, rfl⟩ := List.exists_cons_of_ne_nil hne
  obtain ⟨rfl, hbehind⟩ := List.cons.inj hcs
  refine ⟨⟨d, rest, rfl, hc⟩, hbegins', fun hnone => hexponent ?_⟩
  rcases hends with rfl | hlast
  · rwa [List.append_nil]
  · obtain ⟨front, hfront⟩ := List.getLast?_eq_some_iff.mp hlast
    have hnil : front ≠ [] := by
      rintro rfl
      exact isNameStart_ne hc (d := '\n') rfl (List.cons.inj hfront).1
    have hline : ∀ more, exponentLength (front ++ '\n' :: more) = exponentLength front :=
      fun more => exponentLength_append hnil fun c hc => by cases hc; decide
    rw [hfront, hline] at hnone
    rw [hfront, List.append_assoc]
    exact (hline more).trans hnone

/-- A fraction that ends before a name. -/
theorem Replaces.fractionLength (h : Replaces ending behind) {front : List Char}
    (hends : fractionLength (front ++ behind) ≤ front.length) :
    Scan.fractionLength (front ++ ending) = Scan.fractionLength (front ++ behind) := by
  have hother : ∀ {cs}, BeginsName cs → Scan.fractionLength cs = 0 := by
    rintro _ ⟨c, more, rfl, hc⟩
    unfold Scan.fractionLength
    split
    · rename_i heq
      exact absurd (List.cons.inj heq).1 (isNameStart_ne hc rfl)
    · rfl
  cases front with
  | nil => rw [List.nil_append, List.nil_append, hother h.begins, hother h.begins']
  | cons c front =>
      by_cases hc : c = '.'
      · subst hc
        have hle := runLength_le Char.isDigit front
        have hnext : ∀ {cs}, BeginsName cs → Scan.fractionLength ('.' :: front ++ cs) =
            if Scan.runLength Char.isDigit front = 0 then 0
            else 1 + Scan.runLength Char.isDigit front +
              exponentLength (front.drop (Scan.runLength Char.isDigit front) ++ cs) := by
          intro cs hcs
          rw [List.cons_append, Scan.fractionLength, hcs.runLength fun _ => isDigit_of_isNameStart,
            List.drop_append_of_le_length hle]
        rw [hnext h.begins] at hends ⊢
        rw [hnext h.begins']
        by_cases hdigits : Scan.runLength Char.isDigit front = 0
        · rw [if_pos hdigits, if_pos hdigits]
        · rw [if_neg hdigits] at hends ⊢
          rw [if_neg hdigits]
          by_cases hrest : front.drop (Scan.runLength Char.isDigit front) = []
          · -- the digits end in front of the name, so an exponent would be part of it
            have hall := List.drop_eq_nil_iff.mp hrest
            rw [hrest, List.nil_append] at hends ⊢
            have hnone : exponentLength behind = 0 := by
              rw [List.length_cons] at hends
              omega
            rw [List.nil_append, hnone, h.exponent hnone]
          · rw [h.begins.exponentLength hrest, h.begins'.exponentLength hrest]
      · rw [List.cons_append, List.cons_append]
        unfold Scan.fractionLength
        split
        · rename_i heq
          exact absurd (List.cons.inj heq).1 hc
        · split
          · rename_i heq
            exact absurd (List.cons.inj heq).1 hc
          · rfl

/-- A run of a class with name starts, if it does not reach a name. -/
theorem Replaces.runLength (h : Replaces ending behind) {p : Char → Bool}
    (hp : ∀ c, isNameStart c = true → p c = true) {front : List Char}
    (hends : runLength p (front ++ behind) ≤ front.length) :
    Scan.runLength p (front ++ ending) = Scan.runLength p (front ++ behind) := by
  have hstops : (front.takeWhile p).length ≠ front.length := by
    intro hall
    obtain ⟨c, more, rfl, hc⟩ := h.begins
    unfold Scan.runLength at hends
    rw [List.takeWhile_append, if_pos hall, List.takeWhile_cons_of_pos (hp c hc),
      List.length_append, List.length_cons] at hends
    omega
  unfold Scan.runLength
  rw [List.takeWhile_append, List.takeWhile_append, if_neg hstops, if_neg hstops]

theorem stringLength_plain {c : Char} (hc : c ∉ ['"', '\\', '\r', '\n']) (cs : List Char) :
    stringLength (c :: cs) = ((stringLength cs).1 + 1, (stringLength cs).2) := by
  simp only [List.mem_cons, List.not_mem_nil, or_false, not_or] at hc
  rw [stringLength.eq_4 c cs hc.1 fun _ _ hescape => absurd hescape hc.2.1, if_neg (by tauto)]

theorem stringLength_escape {c : Char} (hc : c ≠ '\n') (cs : List Char) :
    stringLength ('\\' :: c :: cs) = ((stringLength cs).1 + 2, (stringLength cs).2) := by
  rw [stringLength, if_neg hc]

theorem stringLength_lineEnd {c : Char} (hc : c = '\r' ∨ c = '\n') (cs : List Char) :
    stringLength (c :: cs) = (0, false) := by
  rcases hc with rfl | rfl <;> rfl

/-- A string that ends before a name. -/
theorem Replaces.stringLength (h : Replaces ending behind) {front : List Char}
    (hends : (stringLength (front ++ behind)).1 ≤ front.length) :
    Scan.stringLength (front ++ ending) = Scan.stringLength (front ++ behind) := by
  have hplain : ∀ {c}, isNameStart c = true → c ∉ ['"', '\\', '\r', '\n'] := by
    intro c hc hmem
    simp only [List.mem_cons, List.not_mem_nil, or_false] at hmem
    rcases hmem with rfl | rfl | rfl | rfl <;> exact absurd hc (by decide)
  fun_induction Scan.stringLength front with
  | case1 =>
      -- a string that reaches the name takes its first character
      obtain ⟨c, more, rfl, hc⟩ := h.begins
      rw [List.nil_append, stringLength_plain (hplain hc), List.length_nil] at hends
      exact absurd hends (Nat.not_succ_le_zero _)
  | case2 front => rw [List.cons_append, List.cons_append, Scan.stringLength, Scan.stringLength]
  | case3 front => simp [Scan.stringLength]
  | case4 c front hc length closed heq ih =>
      simp only [List.cons_append, stringLength_escape hc, List.length_cons] at hends ⊢
      rw [ih (by omega)]
  | case5 c front hquote hescape hc =>
      rcases hc with rfl | hc
      · cases front with
        | cons d front => exact (hescape d front rfl rfl).elim
        | nil =>
            -- a backslash in front of the name takes its first character
            obtain ⟨d, more, rfl, hd⟩ := h.begins
            rw [List.singleton_append, stringLength_escape (isNameStart_ne hd rfl),
              List.length_singleton] at hends
            omega
      · rw [List.cons_append, List.cons_append, stringLength_lineEnd hc, stringLength_lineEnd hc]
  | case6 c front hquote hescape hc length closed heq ih =>
      have hmem : c ∉ ['"', '\\', '\r', '\n'] := by
        simp only [List.mem_cons, List.not_mem_nil, or_false, not_or] at hc ⊢
        exact ⟨hquote, hc⟩
      simp only [List.cons_append, stringLength_plain hmem, List.length_cons] at hends ⊢
      rw [ih (by omega)]

/-- A token that ends before a name ends before another one. -/
theorem Replaces.lexeme (h : Replaces ending behind) (c : Char) {front : List Char}
    (hends : (lexeme c (front ++ behind)).2 ≤ front.length) :
    Scan.lexeme c (front ++ ending) = Scan.lexeme c (front ++ behind) := by
  -- one kind of token after the other, in the order in which the scanner tries them
  unfold Scan.lexeme at hends ⊢
  by_cases hblank : isBlank c = true
  · simp only [if_pos hblank]
    rw [h.begins.runLength fun _ => isBlank_of_isNameStart,
      h.begins'.runLength fun _ => isBlank_of_isNameStart]
  simp only [if_neg hblank] at hends ⊢
  by_cases hnewline : c = '\n'
  · simp only [if_pos hnewline]
  simp only [if_neg hnewline] at hends ⊢
  by_cases hreturn : c = '\r'
  · have hhead : (front ++ ending).head? = some '\n' ↔ (front ++ behind).head? = some '\n' := by
      cases front with
      | nil => exact iff_of_false (h.begins'.head?_ne rfl) (h.begins.head?_ne rfl)
      | cons => exact Iff.rfl
    simp only [if_pos hreturn, hhead]
  simp only [if_neg hreturn] at hends ⊢
  by_cases hcomment : c = '#'
  · simp only [if_pos hcomment] at hends ⊢
    rw [h.runLength (fun _ => isCommentPart_of_isNameStart) hends]
  simp only [if_neg hcomment] at hends ⊢
  by_cases hname : isNameStart c = true
  · simp only [if_pos hname] at hends ⊢
    rw [h.runLength (fun _ => isNamePart_of_isNameStart) hends]
  simp only [if_neg hname] at hends ⊢
  by_cases hdigit : c.isDigit = true
  · have hle := runLength_le Char.isDigit front
    simp only [if_pos hdigit] at hends ⊢
    rw [h.begins.runLength fun _ => isDigit_of_isNameStart,
      List.drop_append_of_le_length hle] at hends ⊢
    rw [h.begins'.runLength fun _ => isDigit_of_isNameStart, List.drop_append_of_le_length hle,
      h.fractionLength]
    rw [List.length_drop]
    split at hends <;> omega
  simp only [if_neg hdigit] at hends ⊢
  by_cases hdot : c = '.'
  · simp only [if_pos hdot] at hends ⊢
    rw [← List.cons_append, ← List.cons_append, h.fractionLength]
    rw [List.cons_append, List.length_cons]
    split at hends <;> omega
  simp only [if_neg hdot] at hends ⊢
  by_cases hquote : c = '"'
  · simp only [if_pos hquote] at hends ⊢
    rw [h.stringLength]
    revert hends
    obtain ⟨length, closed⟩ := Scan.stringLength (front ++ behind)
    cases closed <;> exact id
  simp only [if_neg hquote]

theorem lexeme_of_isNameStart {c : Char} (h : isNameStart c = true) (cs : List Char) :
    lexeme c cs = (.ident, runLength isNamePart cs) := by
  unfold lexeme
  rw [if_neg (by simp [isBlank_of_isNameStart h]), if_neg (isNameStart_ne h rfl),
    if_neg (isNameStart_ne h rfl), if_neg (isNameStart_ne h rfl), if_pos h]

theorem scan_cons (offset : Nat) (c : Char) (cs : List Char) :
    scan offset (c :: cs) =
      let first : Token := ⟨(Scan.lexeme c cs).1, c :: cs.take (Scan.lexeme c cs).2, offset⟩
      first :: scan (offset + first.width) (cs.drop (Scan.lexeme c cs).2) := by
  rw [scan]

/-- The tokens in front of a name are the same in front of another one. -/
theorem Replaces.scan (h : Replaces ending behind) {offset : Nat} {row : List Char}
    {before after : List Token} (hscan : scan offset (row ++ behind) = before ++ after)
    (hrow : before.flatMap Token.chars = row) :
    after = Scan.scan (offset + byteWidth row) behind ∧
      Scan.scan offset (row ++ ending) =
        before ++ Scan.scan (offset + byteWidth row) ending := by
  induction before generalizing offset row with
  | nil =>
      obtain rfl : [] = row := hrow
      exact ⟨hscan.symm, rfl⟩
  | cons t before ih =>
      obtain ⟨c, chars, hchars⟩ :=
        List.exists_cons_of_ne_nil (of_mem_scan (by rw [hscan]; exact List.mem_cons_self)).1
      obtain ⟨rest, rfl⟩ : ∃ rest, row = c :: chars ++ rest := ⟨_, by rw [← hrow, ← hchars]; rfl⟩
      have hrest : before.flatMap Token.chars = rest := by
        rw [List.flatMap_cons, hchars] at hrow
        exact List.append_cancel_left hrow
      rw [List.cons_append, List.cons_append, scan_cons] at hscan
      obtain ⟨hfirst, hnext⟩ := List.cons.inj hscan
      -- the first token ends where its text does
      have hlength : (Scan.lexeme c (chars ++ rest ++ behind)).2 = chars.length := by
        have htake := congrArg List.length (congrArg Token.chars hfirst)
        have hbehind := List.length_pos_of_ne_nil h.begins.ne_nil
        rw [hchars] at htake
        simp only [List.length_cons, List.length_take, List.length_append] at htake
        omega
      have hends : (Scan.lexeme c (chars ++ rest ++ behind)).2 ≤ (chars ++ rest).length := by
        rw [hlength, List.length_append]
        omega
      have hlexeme := h.lexeme c hends
      have htext : ∀ cs : List Char, (chars ++ rest ++ cs).take chars.length = chars ∧
          (chars ++ rest ++ cs).drop chars.length = rest ++ cs := fun cs => by
        rw [List.append_assoc]
        exact ⟨List.take_left, List.drop_left⟩
      rw [hlength, (htext behind).1] at hfirst hnext
      rw [(htext behind).2] at hnext
      obtain ⟨hafter, hother⟩ := ih hnext hrest
      have hwidth : offset + byteWidth (c :: chars ++ rest) =
          offset + Token.width ⟨(Scan.lexeme c (chars ++ rest ++ behind)).1, c :: chars, offset⟩ +
            byteWidth rest := by
        rw [byteWidth_append, ← Nat.add_assoc]
        rfl
      rw [hwidth]
      refine ⟨hafter, ?_⟩
      rw [List.cons_append, List.cons_append, scan_cons, hlexeme, hlength, (htext ending).1,
        (htext ending).2, hfirst]
      rw [hfirst] at hother
      exact congrArg (t :: ·) hother

end Replacing

end Scan

namespace Tiles

variable {offset : Nat} {chars : List Char} {tokens others before after : List Token} {t : Token}

theorem of_append (h : Tiles offset chars (tokens ++ others)) :
    ∃ front behind, Tiles offset front tokens ∧
      Tiles (offset + (tokens.map Token.width).sum) behind others := by
  induction tokens generalizing offset chars with
  | nil => exact ⟨[], chars, .nil offset, h⟩
  | cons t tokens ih =>
      cases h with
      | cons _ rest =>
          obtain ⟨front, behind, hfront, hbehind⟩ := ih rest
          refine ⟨t.chars ++ front, behind, .cons t hfront, ?_⟩
          rwa [List.map_cons, List.sum_cons, ← Nat.add_assoc]

/-- A token that takes some text is there once. -/
theorem notMem (h : Tiles offset chars (before ++ t :: after)) (ht : 0 < t.width) :
    t ∉ before ∧ t ∉ after := by
  have hplace := h.offset_eq
  constructor
  · intro hmem
    obtain ⟨front, between, rfl⟩ := List.append_of_mem hmem
    rw [List.append_assoc, List.cons_append] at h
    have hother := h.offset_eq
    simp only [List.map_append, List.map_cons, List.sum_append, List.sum_cons] at hplace
    omega
  · intro hmem
    obtain ⟨between, behind, rfl⟩ := List.append_of_mem hmem
    rw [← List.cons_append, ← List.append_assoc] at h
    have hother := h.offset_eq
    simp only [List.map_append, List.map_cons, List.sum_append, List.sum_cons] at hother
    omega

end Tiles

/-- Tokens that take no text in front of another one end where their text does. -/
theorem exists_of_append_eq {front others before after : List Token} {t : Token} {rest : List Char}
    (h : front ++ others = before ++ t :: after) (ht : t.chars ≠ [])
    (htext : before.flatMap Token.chars = front.flatMap Token.chars ++ rest) :
    ∃ between, before = front ++ between ∧ between.flatMap Token.chars = rest ∧
      others = between ++ t :: after := by
  rcases List.append_eq_append_iff.mp h with ⟨between, rfl, hothers⟩ | ⟨beyond, rfl, hbeyond⟩
  · rw [List.flatMap_append] at htext
    exact ⟨between, rfl, List.append_cancel_left htext, hothers⟩
  · cases beyond with
    | nil =>
        rw [List.append_nil] at htext ⊢
        exact ⟨[], (List.append_nil _).symm, by simpa using htext, hbeyond.symm⟩
    | cons u beyond =>
        -- then the token would take text of those in front of it
        obtain rfl := (List.cons.inj hbeyond).1
        have hlength := congrArg List.length htext
        have hpos := List.length_pos_of_ne_nil ht
        simp only [List.flatMap_append, List.flatMap_cons, List.length_append] at hlength
        omega

/-- A token is one of those whose texts go on behind the texts in front of it. -/
theorem exists_of_eq_append {front others before after : List Token} {t : Token} {rest : List Char}
    (h : front ++ others = before ++ t :: after) (hrest : rest ≠ [])
    (htext : front.flatMap Token.chars = before.flatMap Token.chars ++ rest) :
    ∃ more, front = before ++ t :: more := by
  have hlength := congrArg List.length htext
  have hpos := List.length_pos_of_ne_nil hrest
  rcases List.append_eq_append_iff.mp h with ⟨between, rfl, -⟩ | ⟨beyond, rfl, hbeyond⟩
  · simp only [List.flatMap_append, List.length_append] at hlength
    omega
  · cases beyond with
    | nil =>
        simp only [List.append_nil, List.length_append] at hlength
        omega
    | cons u beyond =>
        obtain rfl := (List.cons.inj hbeyond).1
        exact ⟨beyond, rfl⟩

namespace Layout

open Scan

theorem content_beforeName (row : List Char) {cs : List Char} (h : BeginsName cs) :
    content (row ++ cs) = row ++ content cs ∧ BeginsName (content cs) := by
  obtain ⟨c, more, rfl, hc⟩ := h
  have hplain : isLineEnd c = false := by
    have hnewline := isNameStart_ne hc (d := '\n') rfl
    have hreturn := isNameStart_ne hc (d := '\r') rfl
    simp [isLineEnd, hnewline, hreturn]
  have hcontent : ∀ row : List Char,
      content (row ++ c :: more) = row ++ c :: content more := by
    intro row
    unfold content
    rw [List.reverse_append, List.reverse_cons, List.append_assoc, List.dropWhile_append]
    split
    · rename_i hempty
      rw [List.isEmpty_iff.mp hempty]
      simp [hplain]
    · simp
  refine ⟨?_, c, content more, hcontent [], hc⟩
  rw [hcontent row]
  exact congrArg (row ++ ·) (hcontent []).symm

theorem markerWidth_beforeName {cs : List Char} (h : BeginsName cs) (row : List Char) :
    markerWidth (row ++ cs) = markerWidth row := by
  have hother : ∀ {c : Char} (more : List Char), c ≠ '-' → markerWidth (c :: more) = 0 := by
    intro c more hc
    rw [markerWidth.eq_2]
    rintro _ heq
    exact hc (List.cons.inj heq).1
  cases row with
  | nil =>
      obtain ⟨c, more, rfl, hc⟩ := h
      exact hother more (isNameStart_ne hc rfl)
  | cons c row =>
      by_cases hc : c = '-'
      · subst hc
        rw [List.cons_append, markerWidth, h.runLength fun _ => isBlank_of_isNameStart, markerWidth]
      · rw [List.cons_append, hother _ hc, hother _ hc]

theorem marks_shift (stack : IndentStack) (column anchor : Nat) (range range' : TextRange) :
    (shift stack column anchor range).marks = (shift stack column anchor range').marks := by
  unfold shift
  split
  · rfl
  · split
    · split <;> rfl
    · rfl

/-- What a line adds up to a name that begins in it does not depend on the name: its blanks, its
marks, and what is scanned behind them.  In a line that holds a comment only, line ends within it
are blank space. -/
theorem exists_line_beforeName (offset : Nat) (stack : IndentStack) (row : List Char) :
    ∃ (front : List Token) (rest : List Char) (f : Token → Token),
      row = front.flatMap Token.chars ++ rest ∧ (∀ t, (f t).chars = t.chars) ∧
      (∀ t, t.kind ≠ .newline → f t = t) ∧
      ∀ cs, BeginsName cs → (line offset stack (row ++ cs)).1 =
        front ++ (scan (offset + byteWidth (front.flatMap Token.chars)) (rest ++ cs)).map f := by
  -- a name neither goes on with blanks nor begins a comment, so both are told without it
  generalize hblanks : row.takeWhile isBlank = blanks
  generalize hrest : row.dropWhile isBlank = rest
  have hrow : row = blanks ++ rest := by
    rw [← hblanks, ← hrest, List.takeWhile_append_dropWhile]
  have hdrop : ∀ cs : List Char, (row ++ cs).drop blanks.length = rest ++ cs := fun cs => by
    rw [hrow, List.append_assoc, List.drop_left]
  have hindent : ∀ {cs : List Char}, BeginsName cs → (row ++ cs).takeWhile isBlank = blanks := by
    rintro _ ⟨c, more, rfl, hc⟩
    rw [List.takeWhile_append]
    split
    · rename_i hall
      rw [List.takeWhile_cons_of_neg (by simp [isBlank_of_isNameStart hc]), List.append_nil,
        ← hblanks]
      exact ((List.takeWhile_prefix _).eq_of_length hall).symm
    · exact hblanks
  have hcomment : ∀ {cs : List Char}, BeginsName cs →
      (rest ++ cs = [] ∨ (rest ++ cs).head? = some '#' ↔ rest.head? = some '#') := by
    intro cs hcs
    cases rest with
    | nil =>
        exact iff_of_false (fun h => h.elim hcs.ne_nil (hcs.head?_ne rfl)) (by simp)
    | cons c rest => simp
  by_cases hhash : rest.head? = some '#'
  · refine ⟨[], row, fun t => if t.kind = .newline then { t with kind := .whitespace } else t, rfl,
      fun t => by dsimp only; split <;> rfl, fun t ht => if_neg ht, fun cs hcs => ?_⟩
    obtain ⟨hcontent, hbegins⟩ := content_beforeName row hcs
    unfold line
    dsimp only
    rw [hcontent, hindent hbegins, hdrop, if_pos ((hcomment hbegins).mpr hhash)]
    rfl
  · generalize hmarks : (shift stack (blanks.length + markerWidth rest)
      (offset + byteWidth blanks) (TextRange.empty offset)).marks = marks
    have hchars : (leadingBlanks offset blanks ++ marks).flatMap Token.chars = blanks := by
      obtain ⟨count, kind, -, hreplicate⟩ := shift_marks stack
        (blanks.length + markerWidth rest) (offset + byteWidth blanks) (TextRange.empty offset)
      rw [List.flatMap_append, (tiles_leadingBlanks offset blanks).flatMap_chars, ← hmarks,
        hreplicate, (Tiles.marks count kind _).flatMap_chars, List.append_nil]
    refine ⟨leadingBlanks offset blanks ++ marks, rest, id, by rw [hchars, hrow], fun _ => rfl,
      fun _ _ => rfl, fun cs hcs => ?_⟩
    obtain ⟨hcontent, hbegins⟩ := content_beforeName row hcs
    unfold line
    dsimp only
    rw [hcontent, hindent hbegins, hdrop, if_neg (mt (hcomment hbegins).mp hhash), hchars,
      List.map_id, markerWidth_beforeName hbegins, hdrop, ← hmarks]
    exact congrArg (leadingBlanks offset blanks ++ · ++ _) (marks_shift ..)

/-! ## Texts -/

/-- A text goes on behind the front of a row with what ends the row, and with other rows. -/
theorem exists_firstRow {row behind : List Char} (hrow : '\n' ∉ row) (hne : behind ≠ []) :
    ∃ first more, behind = first ++ more ∧ first ≠ [] ∧
      (more = [] ∨ first.getLast? = some '\n') ∧
      splitLines (row ++ behind) = (row ++ first) :: splitLines more := by
  by_cases hmem : '\n' ∈ behind
  · obtain ⟨front, more, rfl, hfront⟩ := List.eq_append_cons_of_mem hmem
    have hline : OneLine (row ++ (front ++ ['\n'])) := by
      rw [OneLine, ← List.append_assoc, List.dropLast_concat]
      exact fun hin => (List.mem_append.mp hin).elim hrow hfront
    refine ⟨front ++ ['\n'], more, by simp, by simp, .inr (by simp), ?_⟩
    rw [List.append_cons front, ← List.append_assoc, splitLines_append (.inr (by simp)),
      splitLines_oneLine hline (by simp)]
    rfl
  · have hline : OneLine (row ++ behind) := fun hin =>
      (List.mem_append.mp (List.dropLast_subset _ hin)).elim hrow hmem
    refine ⟨behind, [], (List.append_nil _).symm, hne, .inl rfl, ?_⟩
    rw [splitLines_oneLine hline (List.append_ne_nil_of_right_ne_nil _ hne)]
    rfl

end Layout

open Layout Scan in
/-- The tokens in front of a name stay the same if another name is put in its place and nothing
behind it, and are then followed by what is scanned of the other name. -/
theorem tokenize_cutShort {front behind ending : List Char} {before after : List Token}
    {word : Token} (h : Replaces ending behind) (hending : '\n' ∉ ending)
    (htokens : (tokenize true (String.ofList (front ++ behind))).tokens = before ++ word :: after)
    (hbefore : before.flatMap Token.chars = front) (hword : word.chars ≠ []) :
    word.kind = .ident ∧ (tokenize true (String.ofList (front ++ ending))).tokens =
      before ++ scan (byteWidth front) ending := by
  have hunfold : ∀ cs, (tokenize true (String.ofList cs)).tokens =
      (lines 0 IndentStack.fresh (splitLines cs)).1.tokens := fun cs => by
    unfold tokenize
    rw [String.toList_ofList]
    exact List.append_nil _
  obtain ⟨rows, row, rfl, hrows, hrow⟩ := exists_openRow front
  obtain ⟨first, more, rfl, hne, hends, hsplit⟩ := exists_firstRow hrow h.begins.ne_nil
  have hfirst := h.firstRow hne hends
  have hsplit' : splitLines (row ++ ending) = [row ++ ending] := by
    refine splitLines_oneLine (fun hmem => ?_)
      (List.append_ne_nil_of_right_ne_nil _ h.begins'.ne_nil)
    exact (List.mem_append.mp (List.dropLast_subset _ hmem)).elim hrow hending
  rw [hunfold, List.append_assoc, splitLines_append hrows, hsplit] at htokens
  rw [hunfold, List.append_assoc, splitLines_append hrows, hsplit']
  -- the rows in front of the last one have the same tokens and leave the same columns open
  simp only [lines_append, lines] at htokens ⊢
  rw [flatten_splitLines, Nat.zero_add] at htokens ⊢
  generalize hearlier : (lines 0 IndentStack.fresh (splitLines rows)).1.tokens = earlier at *
  have htext : earlier.flatMap Token.chars = rows := by
    rw [← hearlier, (tiles_lines 0 IndentStack.fresh (splitLines rows)).flatMap_chars,
      flatten_splitLines]
  generalize (lines 0 IndentStack.fresh (splitLines rows)).2 = stack at *
  obtain ⟨indent, rest, f, rfl, hchars, hplain, hline⟩ :=
    exists_line_beforeName (byteWidth rows) stack row
  rw [hline first hfirst.begins, List.append_assoc, ← List.append_assoc] at htokens
  rw [hline ending h.begins', List.append_nil, ← List.append_assoc]
  have hscanned : ∀ ts : List Token, (ts.map f).flatMap Token.chars = ts.flatMap Token.chars :=
    fun ts => by rw [List.flatMap_map]; exact List.flatMap_congr fun t _ => hchars t
  -- the word is among what is scanned behind the marks of its line
  have hfront : before.flatMap Token.chars = (earlier ++ indent).flatMap Token.chars ++ rest := by
    rw [hbefore, List.flatMap_append, htext, List.append_assoc]
  obtain ⟨between, rfl, hbetween, hothers⟩ := exists_of_append_eq htokens hword hfront
  obtain ⟨later, hlater⟩ := exists_of_eq_append hothers hne (by
    rw [hscanned, flatMap_scan, hbetween])
  obtain ⟨scanned, others, hscan, rfl, hmapped⟩ := List.map_eq_append_iff.mp hlater
  rw [hscanned] at hbetween
  obtain ⟨hfound, hother⟩ := hfirst.scan hscan hbetween
  constructor
  · obtain ⟨c, cs, rfl, hc⟩ := hfirst.begins
    obtain ⟨first, behind, rfl, hmapped, -⟩ := List.map_eq_cons_iff.mp hmapped
    rw [scan_cons] at hfound
    have hkind : first.kind = .ident := by
      rw [(List.cons.inj hfound).1]
      exact congrArg Prod.fst (lexeme_of_isNameStart hc cs)
    rw [← hmapped, hplain first (by rw [hkind]; decide), hkind]
  · have hname : (scan (byteWidth (rows ++ (indent.flatMap Token.chars ++ rest))) ending).map f =
        scan (byteWidth (rows ++ (indent.flatMap Token.chars ++ rest))) ending := by
      refine (List.map_congr_left fun t ht => hplain t fun hkind => ?_).trans (List.map_id _)
      exact hending (newline_mem_of_mem_scan ht hkind)
    rw [hother, List.map_append, ← hname, List.append_assoc, List.append_assoc, List.append_assoc,
      byteWidth_append, byteWidth_append, Nat.add_assoc]

end ModelWorkspace
