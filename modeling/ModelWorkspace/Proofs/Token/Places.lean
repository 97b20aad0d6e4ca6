import ModelWorkspace.Proofs.Token.Columns
import ModelWorkspace.Proofs.Token.Nesting

/-!
# Where tokens stand in their lines

What is left of the layout of lines when a text may be malformed in every way, and may stop
in the middle of a line.  `Placed cut place depth kinds` says of what is left of the tokens,
trivia aside, at a place in a line below `depth` open blocks: no block is opened within a
line, no more blocks are closed than are open, and a block is closed within a line only
where the text is cut off, so that nothing but the ends of blocks follows.

A line that is blank apart from a stray carriage return, or apart from a comment that one
ends, has tokens but no line end.  Its first token is an `error`; behind such a token at the
front of a line everything may follow, and the place is `astray`.
-/

namespace ModelWorkspace
namespace Nesting

/-- Where the next token stands. -/
inductive Place where
  /-- At the front of a line. -/
  | front
  /-- Behind something on its line. -/
  | within
  /-- Behind an `error` token that stood at the front of a line. -/
  | astray
deriving DecidableEq

/-- The kinds keep to their places, below `depth` open blocks; with `cut`, the text may be
cut off within a line. -/
def Placed (cut : Bool) : (place : Place) → (depth : Nat) → List SyntaxKind → Prop
  | _, depth, [] => depth = 0
  | _, depth, .newline :: ks => Placed cut .front depth ks
  | place, depth, .indent :: ks => place ≠ .within ∧ Placed cut .front (depth + 1) ks
  | place, depth, .dedent :: ks =>
    (place = .within → cut = true ∧ ∃ count, ks = List.replicate count .dedent) ∧
      ∃ outer, depth = outer + 1 ∧ Placed cut .front outer ks
  | .front, depth, .error :: ks => Placed cut .astray depth ks
  | .astray, depth, _ :: ks => Placed cut .astray depth ks
  | _, depth, _ :: ks => Placed cut .within depth ks

variable {cut : Bool} {place : Place} {depth : Nat} {kind : SyntaxKind} {ks : List SyntaxKind}

/-! ## What a reader learns -/

/-- Behind a token that is no part of the layout, within a line one is still within it. -/
theorem Placed.next (hkind : kind.isLayout = false) (h : Placed cut place depth (kind :: ks)) :
    ∃ next, Placed cut next depth ks ∧ (place = .within → next = .within) := by
  cases place <;> cases kind <;>
    first
    | (cases hkind; done)
    | exact ⟨_, h, fun _ => rfl⟩
    | exact ⟨_, h, fun heq => (by cases heq)⟩

theorem Placed.within (hkind : kind.isLayout = false)
    (h : Placed cut .within depth (kind :: ks)) : Placed cut .within depth ks := by
  obtain ⟨next, hnext, hplace⟩ := h.next hkind
  rwa [hplace rfl] at hnext

/-- Where nothing stands but layout, one is at the front of a line. -/
theorem Placed.front (hks : ∀ kind ∈ ks.head?, kind.isLayout = true)
    (h : Placed cut place depth ks) : Placed cut .front depth ks := by
  cases ks with
  | nil => exact h
  | cons kind ks =>
      have hkind := hks kind rfl
      cases kind with
      | newline => exact h
      | indent => exact ⟨by decide, h.2⟩
      | dedent => exact ⟨fun heq => (by cases heq), h.2⟩
      | _ => cases hkind

theorem Placed.of_newline (h : Placed cut place depth (.newline :: ks)) :
    Placed cut .front depth ks := h

theorem Placed.of_indent (h : Placed cut place depth (.indent :: ks)) :
    Placed cut .front (depth + 1) ks := h.2

theorem Placed.of_dedent (h : Placed cut place (depth + 1) (.dedent :: ks)) :
    Placed cut .front depth ks := by
  obtain ⟨-, outer, houter, hks⟩ := h
  obtain rfl : depth = outer := Nat.succ.inj houter
  exact hks

theorem Placed.not_indent (h : Placed cut .within depth (.indent :: ks)) : False :=
  h.1 rfl

/-- Within a line a block is closed only where the text is cut off. -/
theorem Placed.cut_of_dedent (h : Placed cut .within depth (.dedent :: ks)) : cut = true :=
  (h.1 rfl).1

theorem Placed.not_dedent (h : Placed cut place 0 (.dedent :: ks)) : False := by
  obtain ⟨-, outer, houter, -⟩ := h
  cases houter

/-! ## Lines -/

/-- The ends of all open blocks may stand everywhere, if the text may be cut off. -/
theorem placed_dedents (hcut : place = .within → cut = true) (depth : Nat) :
    Placed cut place depth (List.replicate depth .dedent) := by
  induction depth generalizing place with
  | zero => exact rfl
  | succ depth ih => exact ⟨fun h => ⟨hcut h, depth, rfl⟩, depth, rfl, ih fun heq => by cases heq⟩

/-- What is no part of the layout may stand everywhere. -/
theorem Placed.cons (hkind : kind.isLayout = false)
    (h : ∀ next, (place = .astray → next = .astray) → Placed cut next depth ks) :
    Placed cut place depth (kind :: ks) := by
  cases place <;> cases kind <;>
    first
    | (cases hkind; done)
    | exact h _ (fun _ => rfl)
    | exact h _ (fun heq => by cases heq)

/-- Behind a line one is at the front of the next one, or still astray. -/
def PlacedBehind (cut : Bool) (depth : Nat) (ks : List SyntaxKind) : Prop :=
  ∀ place, place ≠ .within → Placed cut place depth ks

theorem Placed.junk {junk : List SyntaxKind} (hjunk : ∀ kind ∈ junk, kind.isLayout = false)
    (h : Placed cut .astray depth ks) : Placed cut .astray depth (junk ++ ks) := by
  induction junk with
  | nil => exact h
  | cons kind junk ih =>
      obtain ⟨hkind, hjunk⟩ := List.forall_mem_cons.mp hjunk
      refine Placed.cons hkind fun next hnext => ?_
      rw [hnext rfl]
      exact ih hjunk

theorem PlacedBehind.indents {count : Nat} (h : PlacedBehind cut (depth + count) ks) :
    PlacedBehind cut depth (List.replicate count .indent ++ ks) := by
  induction count generalizing depth with
  | zero => exact h
  | succ count ih =>
      rw [Nat.add_comm count, ← Nat.add_assoc] at h
      exact fun place hplace => ⟨hplace, ih h .front (by decide)⟩

theorem PlacedBehind.dedents {count : Nat} (h : PlacedBehind cut depth ks) :
    PlacedBehind cut (depth + count) (List.replicate count .dedent ++ ks) := by
  induction count with
  | zero => exact h
  | succ count ih =>
      exact fun place hplace => ⟨fun heq => absurd heq hplace, _, rfl, ih .front (by decide)⟩

/-- The marks of a line lead from the columns before it to those behind it. -/
theorem PlacedBehind.marks {before behind : IndentStack} (hbefore : before.WellFormed)
    (hbehind : behind.WellFormed) {anchor : Nat} (h : PlacedBehind cut (behind.size - 1) ks) :
    PlacedBehind cut (before.size - 1)
      (kinds (Layout.marksBetween before behind anchor) ++ ks) := by
  have hpos := hbefore.size_pos
  have hpos' := hbehind.size_pos
  have hmiddle : before.size - 1 + (behind.size - before.size) =
      behind.size - 1 + (before.size - behind.size) := by omega
  rw [Layout.marksBetween, kinds_append, kinds_marks _ _ rfl, kinds_marks _ _ rfl,
    List.append_assoc]
  refine PlacedBehind.indents ?_
  rw [hmiddle]
  exact h.dedents

end Nesting

namespace Layout

open Nesting Scan

/-- What may stand behind a line: all of it at the front of the next line, and everywhere if
the line has no end. -/
structure PlacedAfter (cut : Bool) (row : List Char) (depth : Nat) (ks : List SyntaxKind) :
    Prop where
  behind : PlacedBehind cut depth ks
  unended : '\n' ∉ row → Placed cut .within depth ks

variable {cut : Bool} {depth : Nat} {ks : List SyntaxKind} {row : List Char}

theorem PlacedAfter.of_append {front behind : List Char}
    (h : PlacedAfter cut (front ++ behind) depth ks) (hfront : '\n' ∉ front) :
    PlacedAfter cut behind depth ks :=
  ⟨h.behind, fun hbehind => h.unended fun hmem => (List.mem_append.mp hmem).elim hfront hbehind⟩

theorem PlacedAfter.everywhere (h : PlacedAfter cut row depth ks) (hrow : '\n' ∉ row)
    (place : Place) : Placed cut place depth ks := by
  cases place with
  | within => exact h.unended hrow
  | front => exact h.behind .front (by decide)
  | astray => exact h.behind .astray (by decide)

/-- What is scanned of a line keeps to its place, whichever that is. -/
theorem placed_scan (offset : Nat) (hline : OneLine row) (h : PlacedAfter cut row depth ks)
    (place : Place) : Placed cut place depth (kinds (scan offset row) ++ ks) := by
  refine OneLine.scan_induction (P := fun row ts => PlacedAfter cut row depth ks →
    ∀ place, Placed cut place depth (kinds ts ++ ks)) ?_ ?_ ?_ hline offset h place
  · exact fun h => h.everywhere List.not_mem_nil
  · intro row t hnewline h place
    rw [kinds_cons (by rw [hnewline]; rfl), hnewline]
    exact h.behind .front (by decide)
  · intro front behind t ts hfront hlayout ih h place
    have hbehind := ih (h.of_append hfront)
    cases htrivia : t.kind.isTrivia with
    | true =>
        rw [kinds_trivia htrivia]
        exact hbehind place
    | false =>
        rw [kinds_cons htrivia]
        exact Placed.cons hlayout fun next _ => hbehind next

theorem silent_of_blank (hline : OneLine row) (h : column? row = none) : Silent row := by
  obtain ⟨ends, hparts⟩ := exists_parts row
  unfold column? at h
  extract_lets found blanks rest at h
  split at h
  · rename_i hblank
    exact hparts.silent hline hblank
  · cases h

/-- A line keeps to its place between what is before it and what is behind it. -/
theorem placed_line (step : Step) (hstack : step.stack.WellFormed) (hline : OneLine step.chars)
    (h : PlacedAfter cut step.chars (step.opened.size - 1) ks) :
    PlacedBehind cut (step.stack.size - 1) (kinds step.tokens ++ ks) := by
  cases hcolumn : column? step.chars with
  | none =>
      intro place hplace
      have htokens : step.tokens = blankLineTokens step.offset step.chars :=
        congrArg Prod.fst (line_of_blank hcolumn)
      have hsame : step.opened = step.stack :=
        congrArg (fun result => result.2.1) (line_of_blank hcolumn)
      rw [hsame] at h
      rw [htokens]
      obtain hnil | hhead := silent_of_blank hline hcolumn step.offset
      · rw [hnil]
        exact h.behind place hplace
      · -- everything behind a stray carriage return is astray
        obtain ⟨junk, hjunk⟩ := List.head?_eq_some_iff.mp hhead
        have hlayout : ∀ kind ∈ junk, kind.isLayout = false := by
          intro kind hmem
          obtain ⟨-, t, ht, rfl⟩ := mem_kinds.mp (hjunk ▸ List.mem_cons_of_mem _ hmem)
          exact isLayout_of_mem_blankLine ht
        rw [hjunk]
        have hastray := (h.behind .astray (by decide)).junk hlayout
        cases place with
        | within => exact absurd rfl hplace
        | front => exact hastray
        | astray => exact hastray
  | some column =>
      obtain ⟨blanks, behind, hchars, hblanks, -, htokens⟩ := step.tokens_of_filled hstack hcolumn
      have hnewline : '\n' ∉ blanks := fun hmem => by cases hblanks _ hmem
      have hbehind : OneLine behind := by
        rw [hchars] at hline
        exact hline.of_append
      have hscan := placed_scan (step.offset + byteWidth blanks) hbehind
        ((hchars ▸ h).of_append hnewline)
      rw [htokens, kinds_append, kinds_append, kinds_leadingBlanks, List.nil_append,
        List.append_assoc]
      exact PlacedBehind.marks hstack (Step.wellFormed_opened hstack) fun place _ => hscan place

/-- Only the last line may have no end, and only in a text that may be cut off. -/
def Ended (cut : Bool) : List (List Char) → Prop
  | [] => True
  | row :: rows => OneLine row ∧ ('\n' ∉ row → rows = [] ∧ cut = true) ∧ Ended cut rows

theorem placed_lines (offset : Nat) {stack : IndentStack} {rows : List (List Char)}
    (hstack : stack.WellFormed) (hrows : Ended cut rows) :
    PlacedBehind cut (stack.size - 1)
      (kinds (lines offset stack rows).1.tokens ++
        List.replicate ((lines offset stack rows).2.size - 1) .dedent) := by
  induction rows generalizing offset stack with
  | nil => exact fun place hplace => placed_dedents (fun h => absurd h hplace) _
  | cons row rows ih =>
      obtain ⟨hline, hend, hrows⟩ := hrows
      let step : Step := ⟨offset, stack, row⟩
      have hbehind := ih (offset + byteWidth row)
        (@Step.wellFormed_opened step hstack) hrows
      rw [lines]
      dsimp only
      rw [kinds_append, List.append_assoc]
      refine placed_line step hstack hline ⟨hbehind, fun hrow => ?_⟩
      -- behind the last line nothing but the ends of blocks is left
      obtain ⟨rfl, rfl⟩ := hend hrow
      exact placed_dedents (fun _ => rfl) _

theorem ended_splitLines {cs : List Char}
    (hcut : cut = true ∨ cs = [] ∨ cs.getLast? = some '\n') : Ended cut (splitLines cs) := by
  induction cs with
  | nil => exact trivial
  | cons c cs ih =>
      have hbehind : cut = true ∨ cs = [] ∨ cs.getLast? = some '\n' := by
        refine hcut.imp_right fun hcs => ?_
        cases cs with
        | nil => exact .inl rfl
        | cons d cs => right; simpa using hcs
      rw [splitLines]
      split
      · rename_i hc
        refine ⟨List.not_mem_nil, fun h => ?_, ih hbehind⟩
        exact absurd (List.mem_singleton.mpr hc.symm) h
      · rename_i hc
        split
        · rename_i hnil
          have hflatten := flatten_splitLines cs
          rw [hnil] at hflatten
          refine ⟨List.not_mem_nil, fun _ => ⟨rfl, ?_⟩, trivial⟩
          refine hcut.resolve_right fun hcs => ?_
          subst hflatten
          simp at hcs
          exact hc hcs
        · rename_i line lines hlines
          obtain ⟨hline, hend, hlines⟩ : Ended cut (line :: lines) := hlines ▸ ih hbehind
          have hne : ¬ '\n' = c := fun h => hc h.symm
          refine ⟨?_, fun h => hend (List.not_mem_of_not_mem_cons h), hlines⟩
          cases line with
          | nil => exact List.not_mem_nil
          | cons d line =>
              have hd : '\n' ∉ (d :: line).dropLast := hline
              simp [OneLine, hne, hd]

end Layout

/-- The tokens of a text keep to their places; a text that ends in a line end is not cut
off. -/
theorem placed_tokenize {cut : Bool} {text : String}
    (hcut : cut = true ∨ text.toList = [] ∨ text.toList.getLast? = some '\n') :
    Nesting.Placed cut .front 0 (Nesting.kinds (tokenize false text).tokens) := by
  have hlines := Layout.placed_lines 0 IndentStack.wellFormed_fresh (Layout.ended_splitLines hcut)
  unfold tokenize
  dsimp only
  rw [Nesting.kinds_append, if_neg Bool.false_ne_true, Nesting.kinds_marks _ _ rfl]
  exact hlines .front (by decide)

end ModelWorkspace
