import ModelWorkspace.Proofs.Token.Places
import ModelWorkspace.Proofs.Token.Rows
import ModelWorkspace.Tree.Grammar

/-!
# The keys of lines

Which identifiers begin a property can be told from the tokens alone: one at the front of a
line does, and one behind the dash of a list item does if a colon follows.  `Grammar.keys`
finds them in one pass, in which nothing of the grammar is left but the place on the line and
the number of open blocks.

Line by line, each line has one key at most (`Layout.Step.key?`), and what stands on a line
changes nothing for the next one.  There is one exception.  A blank line or a comment has no
line end of its own, so a stray carriage return on it, which is an `error` token, leads astray:
the next line that is not blank stands behind that token as if it were the same line, unless
it opens or closes a block.  The lines that are left are `Layout.heeded`
(`Layout.keys_closedLines`).
-/

namespace ModelWorkspace
namespace Grammar

/-! ## Keys among tokens -/

/-- What an identifier at this place is for a reader of keys. -/
inductive Spot where
  /-- At the front of a line: a key. -/
  | front
  /-- Behind the dash of a list item: a key if a colon follows. -/
  | dash
  /-- Further behind on a line: no key. -/
  | within
deriving DecidableEq

/-- Whether the token, with these behind it, is a key. -/
def Spot.takes : Spot → Token → List Token → Bool
  | .front, t, _ => t.kind == .ident
  | .dash, t, ts => t.kind == .ident && nextKind? ts == some .colon
  | .within, _, _ => false

/-- The spot behind a token that is no part of the layout.  There are items in blocks only. -/
def Spot.behind (spot : Spot) (depth : Nat) (t : Token) : Spot :=
  if t.kind = .dash ∧ spot = .front ∧ 0 < depth then .dash else .within

/-- The keys among tokens, the first of which stands at a spot below `depth` open blocks. -/
def keys : Spot → (depth : Nat) → List Token → List Token
  | _, _, [] => []
  | spot, depth, t :: ts =>
    if t.kind.isTrivia then keys spot depth ts
    else if t.kind = .newline then keys .front depth ts
    else if t.kind = .indent then keys .front (depth + 1) ts
    else if t.kind = .dedent then keys .front (depth - 1) ts
    else (if spot.takes t ts then [t] else []) ++ keys (spot.behind depth t) depth ts

variable {spot : Spot} {depth : Nat} {t : Token} {ts body : List Token}

@[simp] theorem keys_nil : keys spot depth [] = [] := rfl

theorem keys_trivia (ht : t.kind.isTrivia = true) :
    keys spot depth (t :: ts) = keys spot depth ts := by
  simp [keys, ht]

theorem keys_newline (ht : t.kind = .newline) :
    keys spot depth (t :: ts) = keys .front depth ts := by
  simp [keys, ht, SyntaxKind.isTrivia]

theorem keys_indent (ht : t.kind = .indent) :
    keys spot depth (t :: ts) = keys .front (depth + 1) ts := by
  simp [keys, ht, SyntaxKind.isTrivia]

theorem keys_dedent (ht : t.kind = .dedent) :
    keys spot depth (t :: ts) = keys .front (depth - 1) ts := by
  simp [keys, ht, SyntaxKind.isTrivia]

/-- A token that is neither trivia nor a part of the layout. -/
theorem keys_word (htrivia : t.kind.isTrivia = false) (hlayout : t.kind.isLayout = false) :
    keys spot depth (t :: ts) =
      (if spot.takes t ts then [t] else []) ++ keys (spot.behind depth t) depth ts := by
  have hkinds : t.kind ≠ .newline ∧ t.kind ≠ .indent ∧ t.kind ≠ .dedent := by
    revert hlayout
    cases t.kind <;> simp [SyntaxKind.isLayout]
  simp [keys, htrivia, hkinds]

theorem keys_ident (ht : t.kind = .ident) :
    keys .front depth (t :: ts) = t :: keys .within depth ts := by
  rw [keys_word (by rw [ht]; rfl) (by rw [ht]; rfl)]
  simp [Spot.takes, Spot.behind, ht]

/-- Within a line nothing is a key. -/
theorem keys_within (hlayout : t.kind.isLayout = false) :
    keys .within depth (t :: ts) = keys .within depth ts := by
  cases htrivia : t.kind.isTrivia with
  | true => exact keys_trivia htrivia
  | false => simp [keys_word htrivia hlayout, Spot.takes, Spot.behind]

theorem keys_within_append (hbody : ∀ t ∈ body, t.kind.isLayout = false) :
    keys .within depth (body ++ ts) = keys .within depth ts := by
  induction body with
  | nil => rfl
  | cons t body ih =>
      obtain ⟨ht, hbody⟩ := List.forall_mem_cons.mp hbody
      rw [List.cons_append, keys_within ht, ih hbody]

/-- The line is at its end: what follows is a part of the layout, or nothing. -/
def AtEnd (ts : List Token) : Prop :=
  ∀ t ∈ ts.head?, t.kind.isLayout = true

/-- At the end of a line it does not matter what stood on it. -/
theorem AtEnd.keys_eq (h : AtEnd ts) (spot spot' : Spot) :
    keys spot depth ts = keys spot' depth ts := by
  cases ts with
  | nil => rfl
  | cons t ts =>
      have ht : t.kind.isLayout = true := h t rfl
      have hkinds : t.kind = .newline ∨ t.kind = .indent ∨ t.kind = .dedent := by
        revert ht
        cases t.kind <;> simp [SyntaxKind.isLayout]
      rcases hkinds with ht | ht | ht
      · rw [keys_newline ht, keys_newline ht]
      · rw [keys_indent ht, keys_indent ht]
      · rw [keys_dedent ht, keys_dedent ht]

/-! ## One line -/

/-- The words of a line: its tokens without trivia and the parts of the layout. -/
def words (tokens : List Token) : List Token :=
  tokens.filter fun t => !t.kind.isTrivia && !t.kind.isLayout

theorem words_append (ts us : List Token) : words (ts ++ us) = words ts ++ words us :=
  List.filter_append ..

theorem words_trivia (ht : t.kind.isTrivia = true) : words (t :: ts) = words ts := by
  simp [words, ht]

theorem words_cons (htrivia : t.kind.isTrivia = false) (hlayout : t.kind.isLayout = false) :
    words (t :: ts) = t :: words ts := by
  simp [words, htrivia, hlayout]

/-- The identifier at the front, if a colon follows. -/
def keyBeforeColon? : List Token → Option Token
  | key :: colon :: _ => if key.kind = .ident ∧ colon.kind = .colon then some key else none
  | _ => none

/-- The key among the words of a line: the identifier at its front, or the one behind
the dash of an item. -/
def lineKey? (depth : Nat) : List Token → Option Token
  | [] => none
  | t :: ts =>
    if t.kind = .ident then some t
    else if t.kind = .dash ∧ 0 < depth then keyBeforeColon? ts
    else none

/-- The kind of the next word on the line. -/
theorem nextKind?_append (hbody : ∀ t ∈ body, t.kind.isLayout = false) (hend : AtEnd ts) :
    nextKind? (body ++ ts) = some .colon ↔
      (words body).head?.map Token.kind = some .colon := by
  induction body with
  | nil =>
      cases ts with
      | nil => simp [nextKind?, words]
      | cons t ts =>
          have ht : t.kind.isLayout = true := hend t rfl
          have htrivia : t.kind.isTrivia = false := by
            revert ht
            cases t.kind <;> decide
          have hcolon : t.kind ≠ .colon := by
            intro hkind
            rw [hkind] at ht
            cases ht
          simp [nextKind?, words, htrivia, hcolon]
  | cons t body ih =>
      obtain ⟨ht, hbody⟩ := List.forall_mem_cons.mp hbody
      cases htrivia : t.kind.isTrivia with
      | true =>
          have hnext : nextKind? (t :: (body ++ ts)) = nextKind? (body ++ ts) := by
            simp [nextKind?, htrivia]
          rw [List.cons_append, hnext, words_trivia htrivia]
          exact ih hbody
      | false =>
          have hnext : nextKind? (t :: (body ++ ts)) = some t.kind := by
            simp [nextKind?, htrivia]
          rw [List.cons_append, hnext, words_cons htrivia ht]
          rfl

theorem keys_dash_append (hbody : ∀ t ∈ body, t.kind.isLayout = false) (hend : AtEnd ts) :
    keys .dash depth (body ++ ts) =
      (keyBeforeColon? (words body)).toList ++ keys .front depth ts := by
  induction body with
  | nil => exact hend.keys_eq .dash .front
  | cons t body ih =>
      obtain ⟨ht, hbody⟩ := List.forall_mem_cons.mp hbody
      cases htrivia : t.kind.isTrivia with
      | true =>
          rw [List.cons_append, keys_trivia htrivia, words_trivia htrivia]
          exact ih hbody
      | false =>
          have hnext := nextKind?_append hbody hend
          have hwithin : keys .within depth (body ++ ts) = keys .front depth ts :=
            (keys_within_append hbody).trans (hend.keys_eq .within .front)
          have hkey : (keyBeforeColon? (t :: words body)).toList =
              if t.kind = .ident ∧ nextKind? (body ++ ts) = some .colon then [t] else [] := by
            cases hwords : words body with
            | nil => simp [keyBeforeColon?, hnext, hwords]
            | cons colon more => simp [keyBeforeColon?, hnext, hwords, apply_ite]
          rw [List.cons_append, keys_word htrivia ht, words_cons htrivia ht, hkey]
          simp [Spot.takes, Spot.behind, hwithin]

/-- The keys of a line that is read from its front. -/
theorem keys_front_append (hbody : ∀ t ∈ body, t.kind.isLayout = false) (hend : AtEnd ts) :
    keys .front depth (body ++ ts) =
      (lineKey? depth (words body)).toList ++ keys .front depth ts := by
  induction body with
  | nil => rfl
  | cons t body ih =>
      obtain ⟨ht, hbody⟩ := List.forall_mem_cons.mp hbody
      cases htrivia : t.kind.isTrivia with
      | true =>
          rw [List.cons_append, keys_trivia htrivia, words_trivia htrivia]
          exact ih hbody
      | false =>
          have hwithin : keys .within depth (body ++ ts) = keys .front depth ts :=
            (keys_within_append hbody).trans (hend.keys_eq .within .front)
          rw [List.cons_append, keys_word htrivia ht, words_cons htrivia ht, lineKey?]
          by_cases hident : t.kind = .ident
          · simp [Spot.takes, Spot.behind, hident, hwithin]
          · by_cases hdash : t.kind = .dash ∧ 0 < depth
            · have hitem : keys .dash depth (body ++ ts) =
                  (keyBeforeColon? (words body)).toList ++ keys .front depth ts :=
                keys_dash_append hbody hend
              simp [Spot.takes, Spot.behind, hdash, hitem]
            · have hbehind : Spot.front.behind depth t = .within :=
                if_neg fun h => hdash ⟨h.1, h.2.2⟩
              simp [Spot.takes, hident, hdash, hbehind, hwithin]

end Grammar

namespace Layout

open Grammar Nesting Scan

variable {spot : Spot} {depth offset : Nat} {ts : List Token} {row : List Char}

/-! ## The parts of a line -/

theorem keys_indents (count anchor : Nat) :
    keys spot depth (List.replicate count (mark .indent anchor) ++ ts) =
      keys (if count = 0 then spot else .front) (depth + count) ts := by
  induction count generalizing spot depth with
  | zero => rfl
  | succ count ih =>
      rw [List.replicate_succ, List.cons_append, keys_indent rfl, ih, Nat.add_right_comm]
      simp [Nat.add_assoc]

theorem keys_dedents (count anchor : Nat) :
    keys spot depth (List.replicate count (mark .dedent anchor) ++ ts) =
      keys (if count = 0 then spot else .front) (depth - count) ts := by
  induction count generalizing spot depth with
  | zero => rfl
  | succ count ih =>
      have hdepth : depth - 1 - count = depth - (count + 1) := by omega
      rw [List.replicate_succ, List.cons_append, keys_dedent rfl, ih, hdepth]
      simp

/-- Behind the marks of a line one is at its front, if there are any. -/
theorem keys_marksBetween {before behind : IndentStack} (hbefore : before.WellFormed)
    (hbehind : behind.WellFormed) (anchor : Nat) :
    keys spot (before.size - 1) (marksBetween before behind anchor ++ ts) =
      keys (if behind.size = before.size then spot else .front) (behind.size - 1) ts := by
  have hpos := hbefore.size_pos
  have hpos' := hbehind.size_pos
  have hdepth : before.size - 1 + (behind.size - before.size) - (before.size - behind.size) =
      behind.size - 1 := by omega
  rw [marksBetween, List.append_assoc, keys_indents, keys_dedents, hdepth]
  by_cases hsize : behind.size = before.size
  · simp [hsize]
  · rw [if_neg hsize]
    congr 1
    split
    · have hindents : behind.size - before.size ≠ 0 := by omega
      exact if_neg hindents
    · rfl

theorem keys_leadingBlanks (blanks : List Char) :
    keys spot depth (leadingBlanks offset blanks ++ ts) = keys spot depth ts := by
  unfold leadingBlanks
  split
  · rfl
  · exact keys_trivia rfl

/-- What is scanned of a line: tokens within the line, and its end if it has one. -/
theorem exists_body (offset : Nat) (hline : OneLine row) :
    ∃ body ends, scan offset row = body ++ ends ∧ (∀ t ∈ body, t.kind.isLayout = false) ∧
      words ends = [] ∧ ∀ ts, ('\n' ∉ row → AtEnd ts) →
        AtEnd (ends ++ ts) ∧ ∀ depth, keys .front depth (ends ++ ts) = keys .front depth ts := by
  refine OneLine.scan_induction (P := fun row scanned => ∃ body ends, scanned = body ++ ends ∧
    (∀ t ∈ body, t.kind.isLayout = false) ∧ words ends = [] ∧ ∀ ts, ('\n' ∉ row → AtEnd ts) →
      AtEnd (ends ++ ts) ∧ ∀ depth, keys .front depth (ends ++ ts) = keys .front depth ts)
    ?_ ?_ ?_ hline offset
  · exact ⟨[], [], rfl, List.forall_mem_nil _, rfl,
      fun ts hend => ⟨hend List.not_mem_nil, fun _ => rfl⟩⟩
  · intro row t hnewline
    refine ⟨[], [t], rfl, List.forall_mem_nil _, ?_, fun ts _ => ⟨?_, fun depth => ?_⟩⟩
    · simp [words, hnewline, SyntaxKind.isLayout]
    · intro u hu
      rw [← Option.some.inj hu, hnewline]
      rfl
    · exact keys_newline hnewline
  · rintro front behind t ts hfront hlayout ⟨body, ends, rfl, hbody, hwords, hbehind⟩
    refine ⟨t :: body, ends, rfl, List.forall_mem_cons.mpr ⟨hlayout, hbody⟩, hwords,
      fun ts hend => hbehind ts fun h => hend fun hmem => ?_⟩
    exact (List.mem_append.mp hmem).elim hfront h

theorem keys_of_kinds_nil {body : List Token} (h : kinds body = []) :
    keys spot depth (body ++ ts) = keys spot depth ts := by
  induction body with
  | nil => rfl
  | cons t body ih =>
      cases htrivia : t.kind.isTrivia with
      | true =>
          rw [kinds_trivia htrivia] at h
          rw [List.cons_append, keys_trivia htrivia, ih h]
      | false =>
          rw [kinds_cons htrivia] at h
          cases h

/-- Behind an error nothing is at the front of its line. -/
theorem keys_of_error {body : List Token} (hbody : ∀ t ∈ body, t.kind.isLayout = false)
    (h : (kinds body).head? = some .error) :
    keys spot depth (body ++ ts) = keys .within depth ts := by
  induction body with
  | nil => cases h
  | cons t body ih =>
      obtain ⟨ht, hbody⟩ := List.forall_mem_cons.mp hbody
      cases htrivia : t.kind.isTrivia with
      | true =>
          rw [kinds_trivia htrivia] at h
          rw [List.cons_append, keys_trivia htrivia, ih hbody h]
      | false =>
          rw [kinds_cons htrivia] at h
          have herror : t.kind = .error := Option.some.inj h
          have htakes : spot.takes t (body ++ ts) = false := by
            cases spot <;> simp [Spot.takes, herror]
          have hbehind : spot.behind depth t = .within := by
            simp [Spot.behind, herror]
          rw [List.cons_append, keys_word htrivia ht, htakes, hbehind, keys_within_append hbody]
          rfl

/-! ## Lines -/

/-- The key that the line has if it is read from its front. -/
def Step.key? (step : Step) : Option Token :=
  lineKey? (step.opened.size - 1) (words step.tokens)

/-- Whether a token of the line is no token of the language. -/
def Step.hasError (step : Step) : Bool :=
  step.tokens.any (·.kind == .error)

/-- The spot in front of a line. -/
def spotBefore (astray : Bool) : Spot :=
  if astray then .within else .front

/-- The lines that are read from their front.  A line that is blank or holds a comment only is
none of them, and with an error on it, it leads `astray`: the next line that opens and closes no
block is lost. -/
def heeded : (astray : Bool) → List Step → List Step
  | _, [] => []
  | astray, step :: steps =>
    if column? step.chars = none then heeded (astray || step.hasError) steps
    else if astray = true ∧ step.opened.size = step.stack.size then heeded false steps
    else step :: heeded false steps

/-- A line that is blank or holds a comment only has no key. -/
theorem keys_blankStep {step : Step} (hline : OneLine step.chars)
    (hcolumn : column? step.chars = none) (astray : Bool) :
    keys (spotBefore astray) depth (step.tokens ++ ts) =
      keys (spotBefore (astray || step.hasError)) depth ts := by
  have htokens : step.tokens = blankLineTokens step.offset step.chars :=
    congrArg Prod.fst (line_of_blank hcolumn)
  have hlayout : ∀ t ∈ step.tokens, t.kind.isLayout = false := fun t ht =>
    isLayout_of_mem_blankLine (htokens ▸ ht)
  have hmem : step.hasError = true ↔ .error ∈ kinds step.tokens := by
    rw [Step.hasError, List.any_eq_true, mem_kinds]
    simp [SyntaxKind.isTrivia]
  rcases silent_of_blank hline hcolumn step.offset with hnil | hhead
  · rw [← htokens] at hnil
    have herror : step.hasError = false := by
      rw [Bool.eq_false_iff, ne_eq, hmem, hnil]
      exact List.not_mem_nil
    rw [herror, Bool.or_false]
    exact keys_of_kinds_nil hnil
  · rw [← htokens] at hhead
    have herror : step.hasError = true := hmem.mpr (List.mem_of_head? hhead)
    rw [herror, Bool.or_true]
    exact keys_of_error hlayout hhead

/-- Any other line has its key, unless it stands astray and opens and closes no block. -/
theorem keys_filledStep {step : Step} (hstack : step.stack.WellFormed)
    (hline : OneLine step.chars) (hcolumn : column? step.chars ≠ none) (astray : Bool)
    (hend : '\n' ∉ step.chars → AtEnd ts) :
    keys (spotBefore astray) (step.stack.size - 1) (step.tokens ++ ts) =
      (if astray = true ∧ step.opened.size = step.stack.size then [] else step.key?.toList) ++
        keys .front (step.opened.size - 1) ts := by
  obtain ⟨column, hcolumn⟩ := Option.ne_none_iff_exists'.mp hcolumn
  obtain ⟨blanks, behind, hchars, hblanks, -, htokens⟩ := step.tokens_of_filled hstack hcolumn
  have hblank : '\n' ∉ blanks := fun hmem => by cases hblanks _ hmem
  have hbehind : OneLine behind := by
    rw [hchars] at hline
    exact hline.of_append
  obtain ⟨body, ends, hscan, hbody, hwordsEnds, hends⟩ :=
    exists_body (step.offset + byteWidth blanks) hbehind
  obtain ⟨hatEnd, hrest⟩ := hends ts fun h => hend fun hmem => by
    rw [hchars, List.mem_append] at hmem
    exact hmem.elim hblank h
  have hwords : words step.tokens = words body := by
    have hfront : words (leadingBlanks step.offset blanks) = [] := by
      unfold leadingBlanks
      split <;> rfl
    have hmarks : words (marksBetween step.stack step.opened (step.offset + byteWidth blanks)) =
        [] := by
      simp [words, marksBetween, mark, SyntaxKind.isLayout]
    rw [htokens, hscan]
    simp [words_append, hfront, hmarks, hwordsEnds]
  rw [htokens, hscan]
  simp only [List.append_assoc]
  rw [keys_leadingBlanks, keys_marksBetween hstack (Step.wellFormed_opened hstack),
    Step.key?, hwords]
  by_cases hlost : astray = true ∧ step.opened.size = step.stack.size
  · simp only [spotBefore, hlost, and_self, if_true]
    rw [keys_within_append hbody, hatEnd.keys_eq .within .front, hrest]
    rfl
  · have hspot : (if step.opened.size = step.stack.size then spotBefore astray else .front) =
        Spot.front := by
      by_cases hsize : step.opened.size = step.stack.size
      · have hastray : astray = false := by simpa [hsize] using hlost
        simp [spotBefore, hastray]
      · exact if_neg hsize
    rw [hspot, if_neg hlost, keys_front_append hbody hatEnd, hrest]

/-- The keys of a text are those of the lines that are read from their front. -/
theorem keys_closedLines (offset : Nat) {stack : IndentStack} {rows : List (List Char)}
    (hstack : stack.WellFormed) (hrows : Ended true rows) (anchor : Nat) (astray : Bool) :
    keys (spotBefore astray) (stack.size - 1) (closedLines offset stack rows anchor) =
      (heeded astray (stepsFrom offset stack rows)).filterMap Step.key? := by
  induction rows generalizing offset stack astray with
  | nil =>
      show keys _ _ (List.replicate (stack.size - 1) (mark .dedent anchor)) = []
      rw [← List.append_nil (List.replicate _ _), keys_dedents, keys_nil]
  | cons row rows ih =>
      obtain ⟨hline, hend, hrows⟩ := hrows
      let step : Step := ⟨offset, stack, row⟩
      have hopened : step.opened.WellFormed := step.wellFormed_opened hstack
      have hbehind := ih (offset + byteWidth row) hopened hrows
      have hclosed : closedLines offset stack (row :: rows) anchor =
          step.tokens ++ closedLines (offset + byteWidth row) step.opened rows anchor :=
        List.append_assoc ..
      rw [hclosed, stepsFrom, heeded]
      by_cases hcolumn : column? row = none
      · have hsame : step.opened = stack :=
          congrArg (fun result => result.2.1) (line_of_blank hcolumn)
        rw [if_pos hcolumn, keys_blankStep hline hcolumn, ← hbehind, hsame]
      · have hatEnd : '\n' ∉ row →
            AtEnd (closedLines (offset + byteWidth row) step.opened rows anchor) := by
          -- behind the last line nothing but the ends of blocks is left
          intro hrow t ht
          obtain ⟨rfl, -⟩ := hend hrow
          have hdedent := List.eq_of_mem_replicate (List.mem_of_head? ht)
          rw [hdedent]
          rfl
        have hfront := hbehind false
        rw [if_neg hcolumn, show keys _ _ (step.tokens ++ _) = _ from
          keys_filledStep hstack hline hcolumn astray hatEnd]
        split
        · exact hfront
        · rw [List.filterMap_cons, ← hfront]
          cases step.key? <;> rfl

end Layout
end ModelWorkspace
