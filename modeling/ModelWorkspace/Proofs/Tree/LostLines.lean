import ModelWorkspace.Proofs.Tree.Extent
import ModelWorkspace.Proofs.Tree.Recovery

/-!
# Lines that are lost

Recovery is local to a line: a line that begins with a name and a colon yields its property,
whatever is wrong with the lines around it (`Parse.propertyKeys_ofText`).

There is one exception.  A carriage return that ends no line is an error.  On a blank line or a
comment, where the line end is blank space, the error is set aside up to the end of the next
line that has one, and that line is lost with it (`Layout.Step.IsLost`), unless the end or the
beginning of a block stands in front of it.
-/

namespace ModelWorkspace

namespace Layout

open Grammar Scan

variable {offset : Nat} {row : List Char}

/-! ## Lines that begin with a property -/

/-- The line begins with a name and a colon, directly or behind the marker of a list item. -/
structure Step.BeginsProperty (step : Step) (key : Token) : Prop where
  filled : column? step.chars ≠ none
  ident : key.kind = .ident
  colon : ∃ colon more, colon.kind = .colon ∧
    (words step.tokens = key :: colon :: more ∨
      0 < markerWidth (step.chars.dropWhile isBlank) ∧
        ∃ dash, dash.kind = .dash ∧ words step.tokens = dash :: key :: colon :: more)

/-- The token is the first word of the line, or the first one behind the dash that the line
begins with. -/
def Step.BeginsWith (step : Step) (t : Token) : Prop :=
  ∃ more, words step.tokens = t :: more ∨
    ∃ dash, dash.kind = .dash ∧ words step.tokens = dash :: t :: more

theorem markerWidth_pos {rest ends : List Char} (hne : rest ≠ [])
    (hends : ∀ c ∈ ends, isLineEnd c = true) (h : 0 < markerWidth (rest ++ ends)) :
    0 < markerWidth rest := by
  have hrun : ∀ cs, runLength isBlank (cs ++ ends) = runLength isBlank cs :=
    runLength_append fun c hc => isBlank_of_isLineEnd (hends c (List.mem_of_head? hc))
  obtain ⟨c, cs, rfl⟩ := List.exists_cons_of_ne_nil hne
  by_cases hc : c = '-'
  · subst hc
    rw [List.cons_append, markerWidth, hrun] at h
    exact h
  · rw [List.cons_append, markerWidth] at h
    · exact absurd h (Nat.lt_irrefl 0)
    · exact fun _ heq => hc (List.cons.inj heq).1

/-- The marker of a list item moves the column of its line. -/
theorem column_pos {row : List Char} {column : Nat} (hcolumn : column? row = some column)
    (h : 0 < markerWidth (row.dropWhile isBlank)) : 0 < column := by
  obtain ⟨ends, hparts⟩ := exists_parts row
  unfold column? at hcolumn
  extract_lets found blanks rest at hcolumn
  split at hcolumn
  · cases hcolumn
  · rename_i hfilled
    obtain rfl := Option.some.inj hcolumn
    have hne : rest ≠ [] := fun hnil => hfilled (.inl hnil)
    have hdrop : row.dropWhile isBlank = rest ++ ends := by
      obtain ⟨c, cs, hrest⟩ := List.exists_cons_of_ne_nil hne
      have hc : isBlank c = false := hparts.head c (by
        show rest.head? = some c
        rw [hrest]
        rfl)
      have hchars : row = blanks ++ (rest ++ ends) := hparts.chars_eq
      rw [hchars, List.dropWhile_append_of_pos hparts.blank, hrest]
      simp [hc]
    rw [hdrop] at h
    have hpos := markerWidth_pos hne hparts.lineEnd h
    omega

/-- There are open blocks behind a line that is not at the base column. -/
theorem Step.depth_pos {step : Step} (hstack : step.stack.WellFormed) {column : Nat}
    (hcolumn : column? step.chars = some column) (hpos : 0 < column) :
    0 < step.opened.size - 1 := by
  have hcurrent : 0 < step.opened.current := by
    rcases Step.opened_cases hstack with ⟨hnone, -⟩ | ⟨other, hother, hcases⟩
    · rw [hnone] at hcolumn
      cases hcolumn
    · obtain rfl : other = column := Option.some.inj (hother.symm.trans hcolumn)
      rcases hcases with ⟨hreport, heq⟩ | ⟨-, heq⟩
      · -- the line was reported, so it lies to the left of the deepest column
        have hstray : IsStray step.stack other := by
          by_contra hstray
          simp [Step.report?, hother, hstray] at hreport
        rw [heq]
        exact Nat.lt_of_le_of_lt (Nat.zero_le _) hstray.1
      · rw [heq]
        exact hpos
  have hbased := (Step.wellFormed_opened hstack).based
  revert hcurrent hbased
  simp only [IndentStack.current, IndentStack.levels, IndentStack.size]
  rcases step.opened.columns with _ | ⟨deepest, _ | ⟨next, columns⟩⟩
  · simp
  · intro hcurrent hbased
    simp at hcurrent hbased
    omega
  · simp

theorem Step.BeginsProperty.key?_eq {step : Step} {key : Token} (h : step.BeginsProperty key)
    (hstack : step.stack.WellFormed) : step.key? = some key := by
  obtain ⟨column, hcolumn⟩ := Option.ne_none_iff_exists'.mp h.filled
  obtain ⟨colon, more, hcolon, hwords | ⟨hmarker, dash, hdash, hwords⟩⟩ := h.colon
  · rw [Step.key?, hwords, lineKey?, if_pos h.ident]
  · have hdepth := Step.depth_pos hstack hcolumn (column_pos hcolumn hmarker)
    rw [Step.key?, hwords, lineKey?, if_neg (by rw [hdash]; decide), if_pos ⟨hdash, hdepth⟩,
      keyBeforeColon?, if_pos ⟨h.ident, hcolon⟩]

theorem Step.beginsWith_of_key? {step : Step} {key : Token} (h : step.key? = some key) :
    step.BeginsWith key := by
  rw [Step.key?] at h
  rcases hwords : words step.tokens with _ | ⟨t, ts⟩
  · rw [hwords] at h
    cases h
  · rw [hwords, lineKey?] at h
    split at h
    · obtain rfl := Option.some.inj h
      exact ⟨ts, .inl hwords⟩
    · split at h
      · rename_i hdash
        rcases ts with _ | ⟨u, _ | ⟨colon, more⟩⟩
        · cases h
        · cases h
        · rw [keyBeforeColon?] at h
          split at h
          · obtain rfl := Option.some.inj h
            exact ⟨colon :: more, .inr ⟨t, hdash.1, hwords⟩⟩
          · cases h
      · cases h

/-! ## Lines that are lost -/

/-- The line is lost behind these lines: it opens and closes no block, and between it and a line
with an error on it there are only lines that are blank or hold a comment only, that line being
one of them. -/
def Step.IsLost (step : Step) (front : List Step) : Prop :=
  step.opened.size = step.stack.size ∧ ∃ earlier junk blanks,
    front = earlier ++ junk :: blanks ∧ junk.hasError = true ∧
      ∀ blank ∈ junk :: blanks, column? blank.chars = none

/-- Whether the line behind these lines is astray. -/
def astrayBehind : (astray : Bool) → List Step → Bool
  | astray, [] => astray
  | astray, step :: steps =>
    astrayBehind (decide (column? step.chars = none) && (astray || step.hasError)) steps

theorem astrayBehind_iff {astray : Bool} {steps : List Step} :
    astrayBehind astray steps = true ↔
      (astray = true ∧ ∀ step ∈ steps, column? step.chars = none) ∨
        ∃ earlier junk blanks, steps = earlier ++ junk :: blanks ∧ junk.hasError = true ∧
          ∀ blank ∈ junk :: blanks, column? blank.chars = none := by
  induction steps generalizing astray with
  | nil => simp [astrayBehind]
  | cons step steps ih =>
      rw [astrayBehind, ih]
      constructor
      · rintro (⟨hastray, hblank⟩ | ⟨earlier, junk, blanks, rfl, hjunk⟩)
        · rw [Bool.and_eq_true, Bool.or_eq_true, decide_eq_true_iff] at hastray
          obtain ⟨hstep, hastray | herror⟩ := hastray
          · exact .inl ⟨hastray, List.forall_mem_cons.mpr ⟨hstep, hblank⟩⟩
          · exact .inr ⟨[], step, steps, rfl, herror, List.forall_mem_cons.mpr ⟨hstep, hblank⟩⟩
        · exact .inr ⟨step :: earlier, junk, blanks, rfl, hjunk⟩
      · rintro (⟨hastray, hblank⟩ | ⟨earlier, junk, blanks, hsplit, herror, hblank⟩)
        · obtain ⟨hstep, hblank⟩ := List.forall_mem_cons.mp hblank
          exact .inl ⟨by simp [hstep, hastray], hblank⟩
        · cases earlier with
          | nil =>
              obtain ⟨rfl, rfl⟩ := List.cons.inj hsplit
              obtain ⟨hstep, hblank⟩ := List.forall_mem_cons.mp hblank
              exact .inl ⟨by simp [hstep, herror], hblank⟩
          | cons first earlier =>
              obtain ⟨rfl, rfl⟩ := List.cons.inj hsplit
              exact .inr ⟨earlier, junk, blanks, rfl, herror, hblank⟩

theorem heeded_append (astray : Bool) (front steps : List Step) :
    heeded astray (front ++ steps) =
      heeded astray front ++ heeded (astrayBehind astray front) steps := by
  induction front generalizing astray with
  | nil => rfl
  | cons step front ih =>
      rw [List.cons_append, heeded, heeded, astrayBehind]
      by_cases hcolumn : column? step.chars = none
      · simp [hcolumn, ih]
      · by_cases hlost : astray = true ∧ step.opened.size = step.stack.size
        · simp [hcolumn, hlost, ih]
        · simp [hcolumn, hlost, ih]

/-- A line with a column is heeded in its place, unless it is lost. -/
theorem heeded_filled {step : Step} (hcolumn : column? step.chars ≠ none)
    (front behind : List Step) :
    step.IsLost front ∧ heeded false (front ++ step :: behind) =
        heeded false front ++ heeded false behind ∨
      ¬step.IsLost front ∧ heeded false (front ++ step :: behind) =
        heeded false front ++ step :: heeded false behind := by
  have hiff : astrayBehind false front = true ∧ step.opened.size = step.stack.size ↔
      step.IsLost front := by
    rw [Step.IsLost, astrayBehind_iff, and_comm]
    simp
  rw [heeded_append, heeded, if_neg hcolumn]
  by_cases hlost : astrayBehind false front = true ∧ step.opened.size = step.stack.size
  · exact .inl ⟨hiff.mp hlost, by rw [if_pos hlost]⟩
  · exact .inr ⟨mt hiff.mpr hlost, by rw [if_neg hlost]⟩

theorem heeded_subset (astray : Bool) (steps : List Step) : heeded astray steps ⊆ steps := by
  induction steps generalizing astray with
  | nil => exact List.Subset.refl _
  | cons step steps ih =>
      rw [heeded]
      split
      · exact List.subset_cons_of_subset _ (ih _)
      · split
        · exact List.subset_cons_of_subset _ (ih _)
        · exact List.cons_subset_cons _ (ih _)

/-! ## Errors on blank lines -/

/-- Behind its blanks the line holds a comment, its end, or nothing. -/
def IsIdle (row : List Char) : Prop :=
  ∀ c, (row.dropWhile isBlank).head? = some c → c = '#' ∨ isLineEnd c = true

theorem IsIdle.of_blank {row : List Char} (h : column? row = none) : IsIdle row := by
  obtain ⟨ends, hparts⟩ := exists_parts row
  unfold column? at h
  extract_lets found blanks rest at h
  split at h
  · rename_i hrest
    have hchars : row = blanks ++ (rest ++ ends) := hparts.chars_eq
    intro c hc
    rw [hchars, List.dropWhile_append_of_pos hparts.blank] at hc
    rcases hrest with hnil | hhead
    · rw [hnil, List.nil_append] at hc
      exact .inr (hparts.lineEnd c ((List.dropWhile_sublist _).subset (List.mem_of_head? hc)))
    · obtain ⟨comment, hcomment⟩ := List.head?_eq_some_iff.mp hhead
      rw [hcomment, List.cons_append, List.dropWhile_cons_of_neg (by decide)] at hc
      exact .inl (Option.some.inj hc).symm
  · cases h

/-- Behind a comment nothing is left but the end of the line. -/
theorem isIdle_behindComment (cs : List Char) : IsIdle (cs.dropWhile isCommentPart) := by
  intro c hc
  have hhead := List.head?_dropWhile_not isCommentPart cs
  cases hrest : cs.dropWhile isCommentPart with
  | nil =>
      rw [hrest] at hc
      cases hc
  | cons d rest =>
      have hd : isLineEnd d = true := by simpa [hrest, isCommentPart_eq] using hhead
      rw [hrest, List.dropWhile_cons_of_neg (by simp [isBlank_of_isLineEnd hd])] at hc
      obtain rfl : d = c := Option.some.inj hc
      exact .inr hd

/-- An error on a line without words is a carriage return that ends no line. -/
theorem exists_return_of_error {t : Token} (hline : OneLine row) (hidle : IsIdle row)
    (ht : t ∈ scan offset row) (herror : t.kind = .error) :
    ∃ front behind, row = front ++ '\r' :: behind ∧ behind.head? ≠ some '\n' := by
  fun_induction scan offset row with
  | case1 => cases ht
  | case2 offset c cs kind taken hlexeme token ih =>
      -- a blank or a comment, and what is behind it
      have hrun : kind ≠ .error → IsIdle (cs.drop taken) →
          ∃ front behind, c :: cs = front ++ '\r' :: behind ∧ behind.head? ≠ some '\n' := by
        intro hkind hidle
        rcases List.mem_cons.mp ht with rfl | ht
        · exact absurd herror hkind
        · obtain ⟨front, behind, hsplit, hhead⟩ := ih (hline.drop (taken + 1)) hidle ht
          refine ⟨c :: cs.take taken ++ front, behind, ?_, hhead⟩
          rw [List.append_assoc, ← hsplit, List.cons_append, List.take_append_drop]
      -- the line end, with nothing behind it
      have hend : (lexeme c cs).1 ≠ .newline := by
        intro hnewline
        have hnil := drop_eq_nil_of_newline hline hnewline
        rw [hlexeme] at hnewline hnil
        dsimp only at hnewline hnil
        rw [hnil, scan, List.mem_singleton] at ht
        rw [ht] at herror
        cases hnewline.symm.trans herror
      by_cases hblank : isBlank c = true
      · have hlex : lexeme c cs = (.whitespace, runLength isBlank cs) := by simp [lexeme, hblank]
        obtain ⟨rfl, rfl⟩ := Prod.mk.inj (hlexeme.symm.trans hlex)
        refine hrun (by decide) fun d hd => hidle d ?_
        rw [drop_runLength, List.dropWhile_idempotent] at hd
        rwa [List.dropWhile_cons_of_pos hblank]
      · have hfirst := hidle c (by rw [List.dropWhile_cons_of_neg hblank]; rfl)
        have hcases : c = '#' ∨ c = '\n' ∨ c = '\r' := by simpa [isLineEnd] using hfirst
        rcases hcases with rfl | rfl | rfl
        · have hlex : lexeme '#' cs = (.comment, runLength isCommentPart cs) := rfl
          obtain ⟨rfl, rfl⟩ := Prod.mk.inj (hlexeme.symm.trans hlex)
          exact hrun (by decide) (drop_runLength isCommentPart cs ▸ isIdle_behindComment cs)
        · exact (hend rfl).elim
        · refine ⟨[], cs, rfl, fun hhead => hend ?_⟩
          simp [lexeme, isBlank, hhead]

theorem Step.exists_return_of_hasError {step : Step} (hline : OneLine step.chars)
    (hcolumn : column? step.chars = none) (herror : step.hasError = true) :
    ∃ front behind, step.chars = front ++ '\r' :: behind ∧ behind.head? ≠ some '\n' := by
  have htokens : step.tokens = blankLineTokens step.offset step.chars :=
    congrArg Prod.fst (line_of_blank hcolumn)
  rw [Step.hasError, htokens, List.any_eq_true] at herror
  obtain ⟨t, ht, hkind⟩ := herror
  obtain ⟨scanned, hscanned, rfl⟩ := List.mem_map.mp ht
  refine exists_return_of_error hline (.of_blank hcolumn) hscanned ?_
  by_cases hnewline : scanned.kind = .newline
  · simp [hnewline] at hkind
  · simpa [hnewline] using hkind

end Layout

/-! ## Texts -/

theorem Tiles.end_le {offset : Nat} {chars : List Char} {ts us : List Token}
    (h : Tiles offset chars (ts ++ us)) {t u : Token} (ht : t ∈ ts) (hu : u ∈ us) :
    t.offset + t.width ≤ u.offset := by
  obtain ⟨before, between, rfl⟩ := List.append_of_mem ht
  obtain ⟨between', after, rfl⟩ := List.append_of_mem hu
  have hfirst : before ++ t :: between ++ (between' ++ u :: after) =
      before ++ t :: (between ++ between' ++ u :: after) := by simp
  have hsecond : before ++ t :: between ++ (between' ++ u :: after) =
      (before ++ t :: (between ++ between')) ++ u :: after := by simp
  have ht := (hfirst ▸ h).offset_eq
  have hu := (hsecond ▸ h).offset_eq
  simp only [List.map_append, List.map_cons, List.sum_append, List.sum_cons] at ht hu
  omega

namespace Layout

open Grammar

/-- The steps of a text, one for each of its lines. -/
def stepsOf (text : String) : List Step :=
  stepsFrom 0 IndentStack.fresh (splitLines text.toList)

variable {text : String} {front behind : List Step} {step : Step} {t : Token}

theorem tokens_stepsOf (text : String) :
    (tokenize true text).tokens = (stepsOf text).flatMap Step.tokens := by
  have hlines := lines_eq_steps 0 (splitLines text.toList) IndentStack.wellFormed_fresh
  have htokens : (tokenize true text).tokens =
      (lines 0 IndentStack.fresh (splitLines text.toList)).1.tokens := List.append_nil _
  rw [htokens, hlines]
  rfl

/-- A token that takes some text stands on one line only. -/
theorem mem_front_or_behind (hsteps : stepsOf text = front ++ step :: behind)
    (ht : t ∈ step.tokens) (hvalue : beginsValue t.kind = true) {other : Step}
    (hother : other ∈ front ∨ other ∈ behind) : t ∉ other.tokens := by
  intro hmem
  have htokens := tokens_stepsOf text
  rw [hsteps, List.flatMap_append, List.flatMap_cons] at htokens
  have htiles := tiles_tokenize true text
  have htext : t ∈ (tokenize true text).tokens := by
    rw [htokens]
    exact List.mem_append_right _ (List.mem_append_left _ ht)
  have hpos : 0 < t.width := width_pos_of_beginsValue htext hvalue
  rw [htokens] at htiles
  rcases hother with hother | hother
  · have hend := htiles.end_le (List.mem_flatMap.mpr ⟨other, hother, hmem⟩)
      (List.mem_append_left _ ht)
    omega
  · rw [← List.append_assoc] at htiles
    have hend := htiles.end_le (List.mem_append_right _ ht)
      (List.mem_flatMap.mpr ⟨other, hother, hmem⟩)
    omega

theorem Step.BeginsWith.mem_tokens (h : step.BeginsWith t) : t ∈ step.tokens := by
  refine (List.mem_filter.mp (?_ : t ∈ words step.tokens)).1
  obtain ⟨more, hwords | ⟨dash, -, hwords⟩⟩ := h <;> simp [hwords]

theorem wellFormed_of_mem_stepsOf (h : step ∈ stepsOf text) : step.stack.WellFormed :=
  ((run_lines 0 (splitLines text.toList) IndentStack.wellFormed_fresh).settles step h).wellFormed

theorem oneLine_of_mem_stepsFrom {offset : Nat} {stack : IndentStack} {rows : List (List Char)}
    (hrows : ∀ row ∈ rows, Scan.OneLine row) (h : step ∈ stepsFrom offset stack rows) :
    Scan.OneLine step.chars := by
  induction rows generalizing offset stack with
  | nil => cases h
  | cons row rows ih =>
      obtain ⟨hrow, hrows⟩ := List.forall_mem_cons.mp hrows
      rcases List.mem_cons.mp h with rfl | h
      · exact hrow
      · exact ih hrows h

/-- The line yields its property if and only if it is not lost. -/
theorem mem_heeded_iff {key : Token} (hsteps : stepsOf text = front ++ step :: behind)
    (hkey : step.BeginsProperty key) :
    key ∈ (heeded false (stepsOf text)).filterMap Step.key? ↔ ¬step.IsLost front := by
  have hmem : step ∈ stepsOf text := by simp [hsteps]
  have hown : step.key? = some key := hkey.key?_eq (wellFormed_of_mem_stepsOf hmem)
  have htokens := (Step.beginsWith_of_key? hown).mem_tokens
  have hvalue : beginsValue key.kind = true := by rw [hkey.ident]; rfl
  rw [hsteps]
  rcases heeded_filled hkey.filled front behind with ⟨hlost, heq⟩ | ⟨hlost, heq⟩
  · refine iff_of_false (fun hfound => ?_) (not_not.mpr hlost)
    obtain ⟨other, hother, hfound⟩ := List.mem_filterMap.mp hfound
    rw [heq, List.mem_append] at hother
    exact mem_front_or_behind hsteps htokens hvalue
      (hother.imp (heeded_subset _ _ ·) (heeded_subset _ _ ·))
      (Step.beginsWith_of_key? hfound).mem_tokens
  · refine iff_of_true (List.mem_filterMap.mpr ⟨step, ?_, hown⟩) hlost
    simp [heq]

end Layout

namespace Parse

open Layout

/-- The keys of the properties of every text are those of its lines: each line that begins with a
name and a colon, directly or behind the marker of a list item, yields the property with that
key, whatever is wrong with other lines, unless it is lost behind an error on a blank line or a
comment; and every key stands first on its line, or first behind the dash there.  The errors
behind which lines are lost are carriage returns that end no line. -/
theorem propertyKeys_ofText (text : String) :
    let steps := stepsOf text
    let keys := (Parse.ofText false text).tree.propertyKeys
    keys = ((heeded false steps).filterMap Step.key?).map some ∧
      (∀ front step behind key, steps = front ++ step :: behind → step.BeginsProperty key →
        (some key ∈ keys ↔ ¬step.IsLost front)) ∧
      (∀ key ∈ keys, ∃ step ∈ steps, ∃ t, key = some t ∧ step.BeginsWith t) ∧
      ∀ step ∈ steps, column? step.chars = none → step.hasError = true →
        ∃ front behind, step.chars = front ++ '\r' :: behind ∧ behind.head? ≠ some '\n' := by
  intro steps keys
  have hkeys : keys = ((heeded false steps).filterMap Step.key?).map some := by
    have hplaced : Grammar.Keeps .front 0 (tokenize false text).tokens :=
      .inl (placed_tokenize (.inl rfl))
    have htree := Grammar.allPropertyKeys_fileMembers (byteWidth text.toList) 0 hplaced
    have hrows : Ended true (splitLines text.toList) := ended_splitLines (.inl rfl)
    have hlines := keys_closedLines 0 IndentStack.wellFormed_fresh hrows
      (byteWidth text.toList) false
    rw [← tokens_tokenize text] at hlines
    show Tree.allPropertyKeys _ = _
    rw [htree]
    exact congrArg (List.map some) hlines
  refine ⟨hkeys, ?_, ?_, ?_⟩
  · intro front step behind key hsteps hkey
    rw [hkeys, ← mem_heeded_iff hsteps hkey]
    exact List.mem_map_of_injective (Option.some_injective _)
  · intro key hkey
    rw [hkeys] at hkey
    obtain ⟨t, ht, rfl⟩ := List.mem_map.mp hkey
    obtain ⟨step, hstep, ht⟩ := List.mem_filterMap.mp ht
    exact ⟨step, heeded_subset _ _ hstep, t, rfl, Step.beginsWith_of_key? ht⟩
  · intro step hstep hcolumn herror
    exact Step.exists_return_of_hasError
      (oneLine_of_mem_stepsFrom oneLine_of_mem_splitLines hstep) hcolumn herror

/-- Behind a blank line with a stray carriage return on it, a property is lost. -/
theorem property_may_be_lost :
    let text := "\r\r\na: b\n"
    let step : Step := ⟨3, IndentStack.fresh, ['a', ':', ' ', 'b', '\n']⟩
    let key : Token := ⟨.ident, ['a'], 3⟩
    step ∈ stepsOf text ∧ step.BeginsProperty key ∧
      some key ∉ (Parse.ofText false text).tree.propertyKeys := by
  intro text step key
  have hopened : (⟨0, IndentStack.fresh, ['\r', '\r', '\n']⟩ : Step).opened = IndentStack.fresh :=
    congrArg (fun result => result.2.1) (line_of_blank (by decide))
  have hsteps : stepsOf text = [⟨0, IndentStack.fresh, ['\r', '\r', '\n']⟩, step] := by
    rw [stepsOf, show splitLines text.toList = [['\r', '\r', '\n'], step.chars] by decide]
    simp only [stepsFrom, hopened]
    rfl
  have hwords : Grammar.words step.tokens =
      [key, ⟨.colon, [':'], 4⟩, ⟨.ident, ['b'], 6⟩] := by decide +kernel
  have hkeys : (Parse.ofText false text).tree.propertyKeys = [] := by decide +kernel
  refine ⟨by simp [hsteps], ⟨by decide, rfl, _, _, rfl, .inl hwords⟩, ?_⟩
  rw [hkeys]
  exact List.not_mem_nil

end Parse
end ModelWorkspace
