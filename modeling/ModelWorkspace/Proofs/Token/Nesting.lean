import Mathlib.Data.List.DropRight
import ModelWorkspace.Proofs.Token.Layout

/-!
# Tokens follow the layout of lines

What the layout promises to whoever reads the tokens, trivia aside: line ends stand behind
something on their line, marks of layout stand at the front of a line only, and every block
that is opened is closed.  `Follows front depth kinds` says this of what is left of the
tokens at the front of a line or within one, below `depth` open blocks.

It holds line by line.  What one line adds leads from the blocks that are open before it to
the blocks that are open behind it, whatever follows then; and the mark of a blank line or a
comment is that it adds nothing.  The one thing that upsets this is a stray carriage return,
which is an `error` token of its own, so nothing is promised behind those.
-/

namespace ModelWorkspace
namespace Nesting

/-- The kinds of the tokens that are neither blank nor comment. -/
def kinds : List Token → List SyntaxKind
  | [] => []
  | t :: ts => if t.kind.isTrivia then kinds ts else t.kind :: kinds ts

theorem kinds_trivia {t : Token} (h : t.kind.isTrivia = true) (ts : List Token) :
    kinds (t :: ts) = kinds ts := by
  simp [kinds, h]

theorem kinds_cons {t : Token} (h : t.kind.isTrivia = false) (ts : List Token) :
    kinds (t :: ts) = t.kind :: kinds ts := by
  simp [kinds, h]

/-- Whatever is made of the tokens one by one, apart from trivia, and keeps their kinds. -/
theorem map_eq_kinds {α : Type} {f : List Token → List α} {kind : α → SyntaxKind}
    (hnil : f [] = []) (htrivia : ∀ t ts, t.kind.isTrivia = true → f (t :: ts) = f ts)
    (hcons : ∀ t ts, t.kind.isTrivia = false → ∃ a, f (t :: ts) = a :: f ts ∧ kind a = t.kind)
    (tokens : List Token) : (f tokens).map kind = kinds tokens := by
  induction tokens with
  | nil => rw [hnil]; rfl
  | cons t ts ih =>
      cases h : t.kind.isTrivia with
      | true => rw [htrivia t ts h, kinds_trivia h, ih]
      | false =>
          obtain ⟨a, ha, hkind⟩ := hcons t ts h
          rw [ha, kinds_cons h, List.map_cons, hkind, ih]

@[simp] theorem kinds_append (ts us : List Token) :
    kinds (ts ++ us) = kinds ts ++ kinds us := by
  induction ts with
  | nil => rfl
  | cons t ts ih =>
      cases h : t.kind.isTrivia with
      | true => simp [kinds_trivia h, ih]
      | false => simp [kinds_cons h, ih]

@[simp] theorem kinds_marks (count offset : Nat) {kind : SyntaxKind}
    (h : kind.isSynthetic = true) :
    kinds (List.replicate count (Layout.mark kind offset)) = List.replicate count kind := by
  have hmark : (Layout.mark kind offset).kind.isTrivia = false := by
    cases kind <;> first | rfl | cases h
  induction count with
  | zero => rfl
  | succ count ih =>
      rw [List.replicate_succ, kinds_cons hmark, ih, List.replicate_succ]
      rfl

theorem mem_kinds {kind : SyntaxKind} {tokens : List Token} :
    kind ∈ kinds tokens ↔ kind.isTrivia = false ∧ ∃ t ∈ tokens, t.kind = kind := by
  induction tokens with
  | nil => simp [kinds]
  | cons t ts ih =>
      cases h : t.kind.isTrivia with
      | true =>
          rw [kinds_trivia h, ih]
          refine and_congr_right fun hkind => ?_
          have hne : t.kind ≠ kind := by
            rintro rfl
            rw [h] at hkind
            cases hkind
          simp [hne]
      | false =>
          rw [kinds_cons h, List.mem_cons, ih]
          constructor
          · rintro (rfl | ⟨hkind, u, hu, heq⟩)
            · exact ⟨h, t, List.mem_cons_self, rfl⟩
            · exact ⟨hkind, u, List.mem_cons_of_mem _ hu, heq⟩
          · rintro ⟨hkind, u, hu, heq⟩
            rcases List.mem_cons.mp hu with rfl | hu
            · exact .inl heq.symm
            · exact .inr ⟨hkind, u, hu, heq⟩

/-- Kinds that follow the layout of lines, at the front of a line or within one, below
`depth` open blocks.  Nothing is said of what stands behind an `error`. -/
def Follows : (front : Bool) → (depth : Nat) → List SyntaxKind → Prop
  | front, depth, [] => front = true ∧ depth = 0
  | front, depth, .newline :: kinds => front = false ∧ Follows true depth kinds
  | front, depth, .indent :: kinds => front = true ∧ Follows true (depth + 1) kinds
  | front, depth, .dedent :: kinds =>
    front = true ∧ ∃ outer, depth = outer + 1 ∧ Follows true outer kinds
  | _, _, .error :: _ => True
  | _, depth, _ :: kinds => Follows false depth kinds

variable {front : Bool} {depth : Nat} {ks : List SyntaxKind}

/-- What is no part of the layout may stand everywhere. -/
theorem Follows.cons {kind : SyntaxKind} (hkind : kind.isLayout = false)
    (h : Follows false depth ks) : Follows front depth (kind :: ks) := by
  cases kind <;> first | (cases hkind; done) | simp [Follows, h]

theorem Follows.dedents {count : Nat} (h : Follows true depth ks) :
    Follows true (depth + count) (List.replicate count .dedent ++ ks) := by
  induction count with
  | zero => exact h
  | succ count ih => exact ⟨rfl, depth + count, rfl, ih⟩

/-- Whatever follows the layout from `depth` on, follows it from `outer` on if these kinds
stand before it. -/
def Leads (outer : Nat) (ks : List SyntaxKind) (depth : Nat) : Prop :=
  ∀ more, Follows true depth more → Follows true outer (ks ++ more)

end Nesting

namespace Scan

open Nesting

/-! ## Where a line ends -/

theorem notMem_take_runLength {p : Char → Bool} {c : Char} (hp : p c = false) (cs : List Char) :
    c ∉ cs.take (runLength p cs) := by
  have htake : cs.take (runLength p cs) = cs.takeWhile p :=
    (List.prefix_iff_eq_take.mp (List.takeWhile_prefix p)).symm
  rw [htake]
  intro hmem
  have hc := List.mem_takeWhile_imp hmem
  rw [hp] at hc
  cases hc

theorem notMem_take_add {c : Char} {cs : List Char} {a b : Nat} (ha : c ∉ cs.take a)
    (hb : c ∉ (cs.drop a).take b) : c ∉ cs.take (a + b) := by
  rw [List.take_add, List.mem_append]
  exact not_or.mpr ⟨ha, hb⟩

theorem notMem_take_exponentLength (cs : List Char) :
    '\n' ∉ cs.take (exponentLength cs) := by
  fun_cases exponentLength cs with
  | case1 => exact List.not_mem_nil
  | case2 mark cs hmark sign digits =>
      have hsign : '\n' ∉ cs.take sign := by
        cases cs with
        | nil => simp
        | cons c cs =>
            by_cases hc : c = '+' ∨ c = '-'
            · obtain rfl | rfl := hc <;> simp [sign]
            · simp [sign, hc]
      have hmarks : '\n' ∉ (mark :: cs).take (1 + sign) := by
        rw [Nat.add_comm, List.take_succ_cons, List.mem_cons]
        refine not_or.mpr ⟨?_, hsign⟩
        obtain rfl | rfl := hmark <;> decide
      refine notMem_take_add hmarks ?_
      rw [Nat.add_comm 1 sign, List.drop_succ_cons]
      exact notMem_take_runLength (by decide) _
  | case3 => exact List.not_mem_nil
  | case4 => exact List.not_mem_nil

theorem notMem_take_fractionLength (cs : List Char) :
    '\n' ∉ cs.take (fractionLength cs) := by
  unfold fractionLength
  split
  · rename_i cs
    extract_lets digits
    split
    · exact List.not_mem_nil
    · have hdigits : '\n' ∉ ('.' :: cs).take (1 + digits) := by
        rw [Nat.add_comm, List.take_succ_cons, List.mem_cons]
        exact not_or.mpr ⟨by decide, notMem_take_runLength (by decide) cs⟩
      refine notMem_take_add hdigits ?_
      rw [Nat.add_comm 1 digits, List.drop_succ_cons]
      exact notMem_take_exponentLength _
  · exact List.not_mem_nil

theorem notMem_take_stringLength (cs : List Char) :
    '\n' ∉ cs.take (stringLength cs).1 := by
  fun_induction stringLength cs with
  | case1 => exact List.not_mem_nil
  | case2 cs => simp
  | case3 => exact List.not_mem_nil
  | case4 c cs hc length closed heq ih =>
      rw [heq] at ih
      have hnewline : ¬ '\n' = c := fun h => hc h.symm
      simp [hnewline, ih]
  | case5 => exact List.not_mem_nil
  | case6 c cs hquote hescape hc length closed heq ih =>
      rw [heq] at ih
      have hnewline : ¬ '\n' = c := fun h => hc (.inr (.inr h.symm))
      simp [hnewline, ih]

/-- What is no line end holds none. -/
theorem notMem_lexeme {c : Char} {cs : List Char} (h : (lexeme c cs).1 ≠ .newline) :
    '\n' ∉ c :: cs.take (lexeme c cs).2 := by
  have hc : ¬ '\n' = c := by
    rintro rfl
    exact h rfl
  rw [List.mem_cons]
  refine not_or.mpr ⟨hc, ?_⟩
  revert h
  fun_cases lexeme c cs with
  | case1 | case5 | case6 | case7 => intro; exact notMem_take_runLength (by decide) cs
  | case3 => exact fun h => absurd rfl h
  | case8 =>
      intro
      exact notMem_take_add (notMem_take_runLength (by decide) cs) (notMem_take_fractionLength _)
  | case10 _ _ _ _ _ _ _ hne =>
      intro
      have hfraction := notMem_take_fractionLength (c :: cs)
      have hsucc : fractionLength (c :: cs) = fractionLength (c :: cs) - 1 + 1 :=
        (Nat.sub_add_cancel (Nat.pos_of_ne_zero hne)).symm
      rw [hsucc, List.take_succ_cons] at hfraction
      exact List.not_mem_of_not_mem_cons hfraction
  | case11 _ _ _ _ _ _ _ _ length heq | case12 _ _ _ _ _ _ _ _ length heq =>
      intro
      have hstring := notMem_take_stringLength cs
      rwa [heq] at hstring
  | _ => intro; exact List.not_mem_nil

/-! ## Scanning to the end of a line -/

/-- A run of characters up to the end of its line. -/
def EndsLine (cs : List Char) : Prop :=
  ∃ front, cs = front ++ ['\n'] ∧ '\n' ∉ front

/-- What stands behind characters that are no line end goes on to the end of the line. -/
theorem EndsLine.of_append {cs behind : List Char} (h : EndsLine (cs ++ behind))
    (hcs : '\n' ∉ cs) : EndsLine behind := by
  obtain ⟨front, hfront, hmem⟩ := h
  obtain ⟨middle, rfl, hbehind⟩ | ⟨middle, rfl, hbehind⟩ := List.append_eq_append_iff.mp hfront
  · exact ⟨middle, hbehind, fun hin => hmem (List.mem_append_right _ hin)⟩
  · cases middle with
    | nil => exact ⟨[], hbehind.symm, List.not_mem_nil⟩
    | cons c middle =>
        have hc := (List.cons.inj hbehind).1
        exact absurd (List.mem_append_right _ (hc ▸ List.mem_cons_self)) hcs

theorem kind_eq_newline {c : Char} {cs : List Char} (h : (lexeme c cs).1 = .newline) :
    (c = '\n' ∧ (lexeme c cs).2 = 0) ∨
      (c = '\r' ∧ (lexeme c cs).2 = 1 ∧ cs.head? = some '\n') := by
  revert h
  fun_cases lexeme c cs with
  | case2 _ hc => exact fun _ => .inl ⟨hc, rfl⟩
  | case3 _ _ hc hhead => exact fun _ => .inr ⟨hc, rfl, hhead⟩
  | _ => intro h; cases h

/-- A run of characters within which no line ends. -/
def OneLine (cs : List Char) : Prop :=
  '\n' ∉ cs.dropLast

theorem EndsLine.oneLine {cs : List Char} (h : EndsLine cs) : OneLine cs := by
  obtain ⟨front, rfl, hmem⟩ := h
  rwa [OneLine, List.dropLast_concat]

theorem OneLine.of_append {cs behind : List Char} (h : OneLine (cs ++ behind)) :
    OneLine behind := by
  cases behind with
  | nil => exact List.not_mem_nil
  | cons c behind =>
      rw [OneLine, List.dropLast_append_cons] at h
      exact fun hmem => h (List.mem_append_right _ hmem)

theorem OneLine.drop {cs : List Char} (h : OneLine cs) (n : Nat) : OneLine (cs.drop n) := by
  rw [← List.take_append_drop n cs] at h
  exact h.of_append

theorem OneLine.eq_nil {cs : List Char} (h : OneLine ('\n' :: cs)) : cs = [] := by
  cases cs with
  | nil => rfl
  | cons c cs => exact absurd List.mem_cons_self h

/-- A line end is the end of the line. -/
theorem drop_eq_nil_of_newline {c : Char} {cs : List Char} (hline : OneLine (c :: cs))
    (h : (lexeme c cs).1 = .newline) : cs.drop (lexeme c cs).2 = [] := by
  obtain ⟨rfl, hmore⟩ | ⟨rfl, hmore, hhead⟩ := kind_eq_newline h
  · rw [hmore]
    exact hline.eq_nil
  · obtain ⟨rest, rfl⟩ := List.head?_eq_some_iff.mp hhead
    rw [hmore]
    have hbehind : OneLine ('\n' :: rest) := hline.drop 1
    exact hbehind.eq_nil

theorem endsLine_drop {c : Char} {cs : List Char} (hline : EndsLine (c :: cs))
    (h : (lexeme c cs).1 ≠ .newline) : EndsLine (cs.drop (lexeme c cs).2) := by
  have hsplit : c :: cs = (c :: cs.take (lexeme c cs).2) ++ cs.drop (lexeme c cs).2 := by simp
  rw [hsplit] at hline
  exact hline.of_append (notMem_lexeme h)

theorem isTrivia_lexeme {c : Char} {cs : List Char} (h : (lexeme c cs).1.isTrivia = true) :
    isBlank c = true ∨ c = '#' := by
  revert h
  fun_cases lexeme c cs with
  | case1 hc => exact fun _ => .inl hc
  | case5 _ _ _ hc => exact fun _ => .inr hc
  | _ => intro h; cases h

theorem isLayout_lexeme {c : Char} {cs : List Char} (h : (lexeme c cs).1 ≠ .newline) :
    (lexeme c cs).1.isLayout = false := by
  revert h
  fun_cases lexeme c cs with
  | case2 | case3 => exact fun h => absurd rfl h
  | _ => intro; rfl

/-- A line is scanned word by word, and its end is scanned last. -/
theorem OneLine.scan_induction {P : List Char → List Token → Prop} (nil : P [] [])
    (newline : ∀ cs t, t.kind = .newline → P cs [t])
    (word : ∀ cs behind t ts, '\n' ∉ cs → t.kind.isLayout = false → P behind ts →
      P (cs ++ behind) (t :: ts))
    {cs : List Char} (hline : OneLine cs) (offset : Nat) : P cs (scan offset cs) := by
  fun_induction scan offset cs with
  | case1 => exact nil
  | case2 offset c cs kind taken hlexeme token ih =>
      have hkind : token.kind = (lexeme c cs).1 := by simp [token, hlexeme]
      have htaken : taken = (lexeme c cs).2 := by simp [hlexeme]
      by_cases hnewline : (lexeme c cs).1 = .newline
      · rw [htaken, drop_eq_nil_of_newline hline hnewline, scan]
        exact newline _ _ (hkind.trans hnewline)
      · have hbehind := word (c :: cs.take taken) _ token _ (htaken ▸ notMem_lexeme hnewline)
          (hkind ▸ isLayout_lexeme hnewline) (ih (hline.drop (taken + 1)))
        rwa [List.cons_append, List.take_append_drop] at hbehind

/-- A line within which something stands is left at its end only. -/
theorem follows_scan (offset : Nat) {cs : List Char} (hline : EndsLine cs) {depth : Nat}
    {more : List SyntaxKind} (h : Follows true depth more) :
    Follows false depth (kinds (scan offset cs) ++ more) := by
  refine OneLine.scan_induction
    (P := fun cs ts => EndsLine cs → Follows false depth (kinds ts ++ more))
    ?_ ?_ ?_ hline.oneLine offset hline
  · rintro ⟨front, hfront, -⟩
    simp at hfront
  · intro cs t hnewline _
    rw [kinds_cons (by rw [hnewline]; rfl), hnewline]
    exact ⟨rfl, h⟩
  · intro cs behind t ts hcs hlayout ih hline
    have hbehind := ih (hline.of_append hcs)
    cases htrivia : t.kind.isTrivia with
    | true => rwa [kinds_trivia htrivia]
    | false =>
        rw [kinds_cons htrivia]
        exact Follows.cons hlayout hbehind

/-- The same for a line at whose front stands neither trivia nor a line end. -/
theorem follows_scan_front (offset : Nat) {c : Char} {cs : List Char}
    (hline : EndsLine (c :: cs)) (hnewline : (lexeme c cs).1 ≠ .newline)
    (htrivia : (lexeme c cs).1.isTrivia = false) {depth : Nat} {more : List SyntaxKind}
    (h : Follows true depth more) :
    Follows true depth (kinds (scan offset (c :: cs)) ++ more) := by
  rw [scan]
  have hbehind := endsLine_drop hline hnewline
  dsimp only
  rw [kinds_cons htrivia]
  exact Follows.cons (isLayout_lexeme hnewline) (follows_scan _ hbehind h)

end Scan

namespace Layout

open Nesting Scan

/-! ## Characters of a line end -/

theorem eq_of_isLineEnd {c : Char} (h : isLineEnd c = true) : c = '\n' ∨ c = '\r' := by
  simpa [isLineEnd] using h

theorem isBlank_of_isLineEnd {c : Char} (h : isLineEnd c = true) : isBlank c = false := by
  rcases eq_of_isLineEnd h with rfl | rfl <;> rfl

/-- A comment goes on up to the line end. -/
theorem isCommentPart_eq (c : Char) : isCommentPart c = !isLineEnd c := by
  simp [isCommentPart, isLineEnd, Bool.and_comm, bne]

/-! ## Blank lines -/

/-- As a blank line, the characters add nothing but what an `error` token begins. -/
def Silent (cs : List Char) : Prop :=
  ∀ offset, kinds (blankLineTokens offset cs) = [] ∨
    (kinds (blankLineTokens offset cs)).head? = some .error

theorem Silent.leads {cs : List Char} (h : Silent cs) (offset depth : Nat) :
    Leads depth (kinds (blankLineTokens offset cs)) depth := by
  intro more hmore
  obtain hnil | hhead := h offset
  · rw [hnil]
    exact hmore
  · obtain ⟨ks, hks⟩ := List.head?_eq_some_iff.mp hhead
    rw [hks]
    simp [Follows]

theorem blankLineTokens_cons (offset : Nat) (c : Char) (cs : List Char) :
    ∃ t : Token, (t.kind = if (lexeme c cs).1 = .newline then .whitespace else (lexeme c cs).1) ∧
      ∃ behind, blankLineTokens offset (c :: cs) =
        t :: blankLineTokens behind (cs.drop (lexeme c cs).2) := by
  generalize hlexeme : lexeme c cs = found
  obtain ⟨kind, more⟩ := found
  unfold blankLineTokens
  rw [scan, hlexeme]
  refine ⟨_, ?_, _, rfl⟩
  dsimp only
  split <;> rfl

theorem silent_nil : Silent [] := by
  intro offset
  rw [blankLineTokens, scan]
  exact .inl rfl

theorem silent_cons_trivia {c : Char} {cs : List Char} (h : (lexeme c cs).1.isTrivia = true)
    (hbehind : Silent (cs.drop (lexeme c cs).2)) : Silent (c :: cs) := by
  intro offset
  obtain ⟨t, hkind, behind, heq⟩ := blankLineTokens_cons offset c cs
  have htrivia : t.kind.isTrivia = true := by
    rw [hkind]
    split
    · rfl
    · exact h
  rw [heq, kinds_trivia htrivia]
  exact hbehind behind

/-- The line end of a blank line, or a stray carriage return in its place. -/
theorem silent_cons_lineEnd {c : Char} {cs : List Char} (hline : OneLine (c :: cs))
    (hc : isLineEnd c = true) : Silent (c :: cs) := by
  have hkind : (lexeme c cs).1 = .newline ∨ (lexeme c cs).1 = .error := by
    obtain rfl | rfl := eq_of_isLineEnd hc
    · exact .inl rfl
    · by_cases hhead : cs.head? = some '\n'
      · left
        simp [lexeme, isBlank, hhead]
      · right
        simp [lexeme, isBlank, hhead]
  intro offset
  obtain ⟨t, htkind, behind, heq⟩ := blankLineTokens_cons offset c cs
  rw [heq]
  obtain hnewline | herror := hkind
  · have htrivia : t.kind.isTrivia = true := by
      rw [htkind, if_pos hnewline]
      rfl
    rw [kinds_trivia htrivia, drop_eq_nil_of_newline hline hnewline]
    exact silent_nil behind
  · have hterror : t.kind = .error := by
      rw [htkind, herror]
      rfl
    rw [kinds_cons (by rw [hterror]; rfl), hterror]
    exact .inr rfl

theorem drop_runLength (p : Char → Bool) (cs : List Char) :
    cs.drop (runLength p cs) = cs.dropWhile p := by
  have hsplit := List.takeWhile_append_dropWhile (p := p) (l := cs)
  conv_lhs => rw [← hsplit]
  rw [runLength, List.drop_left' (by rw [hsplit])]

/-- A run does not go on into characters that do not begin with one of its class. -/
theorem runLength_append {p : Char → Bool} {ends : List Char}
    (hends : ∀ c ∈ ends.head?, p c = false) (cs : List Char) :
    runLength p (cs ++ ends) = runLength p cs := by
  induction cs with
  | nil =>
      cases ends with
      | nil => rfl
      | cons c ends => simp [runLength, hends c rfl]
  | cons c cs ih =>
      unfold runLength at ih ⊢
      rw [List.cons_append, List.takeWhile_cons, List.takeWhile_cons]
      split
      · rw [List.length_cons, List.length_cons, ih]
      · rfl

theorem silent_cons_comment {cs : List Char} (hline : OneLine ('#' :: cs)) :
    Silent ('#' :: cs) := by
  have hkind : lexeme '#' cs = (.comment, runLength isCommentPart cs) := rfl
  refine silent_cons_trivia (by rw [hkind]; rfl) ?_
  have hbehind := hline.drop (runLength isCommentPart cs + 1)
  rw [List.drop_succ_cons] at hbehind
  rw [hkind]
  dsimp only
  rw [drop_runLength] at hbehind ⊢
  -- a comment goes on up to the line end
  cases hrest : cs.dropWhile isCommentPart with
  | nil => exact silent_nil
  | cons c rest =>
      have hc : isCommentPart c = false := by
        have hnot := List.head?_dropWhile_not isCommentPart cs
        simpa [hrest] using hnot
      refine silent_cons_lineEnd (hrest ▸ hbehind) ?_
      simpa [isCommentPart_eq] using hc

theorem silent_of_blanks {blanks behind : List Char} (hblanks : ∀ c ∈ blanks, isBlank c = true)
    (hhead : ∀ c, behind.head? = some c → isBlank c = false) (hbehind : Silent behind) :
    Silent (blanks ++ behind) := by
  cases blanks with
  | nil => exact hbehind
  | cons c blanks =>
      have hc := hblanks c List.mem_cons_self
      have hkind : ∀ cs, lexeme c cs = (.whitespace, runLength isBlank cs) := by
        intro cs
        simp [lexeme, hc]
      rw [List.cons_append]
      refine silent_cons_trivia (by rw [hkind]; rfl) ?_
      rw [hkind]
      dsimp only
      have hrest : behind.dropWhile isBlank = behind := by
        cases behind with
        | nil => rfl
        | cons b behind => simp [hhead b rfl]
      rw [drop_runLength, List.dropWhile_append_of_pos
        fun a ha => hblanks a (List.mem_cons_of_mem _ ha), hrest]
      exact hbehind

/-! ## One line -/

/-- A line is the blanks that indent it, its content behind them, and its line end. -/
structure Parts (chars blanks rest ends : List Char) : Prop where
  content_eq : content chars = blanks ++ rest
  chars_eq : chars = blanks ++ (rest ++ ends)
  blank : ∀ c ∈ blanks, isBlank c = true
  head : ∀ c, rest.head? = some c → isBlank c = false
  lineEnd : ∀ c ∈ ends, isLineEnd c = true

theorem exists_parts (chars : List Char) :
    ∃ ends, Parts chars ((content chars).takeWhile isBlank)
      ((content chars).drop ((content chars).takeWhile isBlank).length) ends := by
  have hcontent := List.takeWhile_append_dropWhile (p := isBlank) (l := content chars)
  have hrest := drop_runLength isBlank (content chars)
  rw [runLength] at hrest
  have hchars : content chars ++ chars.rtakeWhile isLineEnd = chars :=
    List.rdropWhile_append_rtakeWhile ..
  rw [hrest]
  refine ⟨chars.rtakeWhile isLineEnd, ⟨hcontent.symm, ?_, ?_, ?_, ?_⟩⟩
  · rw [← List.append_assoc, hcontent, hchars]
  · exact fun c => List.mem_takeWhile_imp
  · intro c hc
    have hnot := List.head?_dropWhile_not isBlank (content chars)
    rw [hc] at hnot
    exact hnot
  · exact fun c => List.mem_rtakeWhile_imp

theorem isLineEnd_last {chars front : List Char} {c : Char}
    (h : content chars = front ++ [c]) : isLineEnd c = false := by
  have hne : chars.rdropWhile isLineEnd ≠ [] := by
    change content chars ≠ []
    simp [h]
  have hlast := List.rdropWhile_last_not isLineEnd chars hne
  have hc : (chars.rdropWhile isLineEnd).getLast hne = c := by
    change (content chars).getLast hne = c
    simp [h]
  rw [hc] at hlast
  simpa using hlast

theorem notMem_content {chars : List Char} (hline : OneLine chars) :
    '\n' ∉ content chars := by
  change '\n' ∉ chars.rdropWhile isLineEnd
  induction chars using List.reverseRecOn with
  | nil => exact List.not_mem_nil
  | append_singleton front c =>
      rw [OneLine, List.dropLast_concat] at hline
      intro hmem
      by_cases hc : isLineEnd c = true
      · rw [List.rdropWhile_concat_pos _ _ _ hc] at hmem
        exact hline ((List.rdropWhile_prefix isLineEnd front).subset hmem)
      · rw [List.rdropWhile_concat_neg _ _ _ hc] at hmem
        rcases List.mem_append.mp hmem with hmem | hmem
        · exact hline hmem
        · exact hc (List.mem_singleton.mp hmem ▸ rfl)

namespace Parts

variable {chars blanks rest ends : List Char}

theorem endsLine (h : Parts chars blanks rest ends) (hline : EndsLine chars) :
    EndsLine (rest ++ ends) := by
  rw [h.chars_eq] at hline
  refine hline.of_append fun hmem => ?_
  have hblank := h.blank _ hmem
  cases hblank

theorem silent (h : Parts chars blanks rest ends) (hline : OneLine chars)
    (hrest : rest = [] ∨ rest.head? = some '#') : Silent chars := by
  have hbehind : OneLine (rest ++ ends) := by
    rw [h.chars_eq] at hline
    exact hline.of_append
  rw [h.chars_eq]
  obtain rfl | hhead := hrest
  · -- nothing but the line end stands behind the blanks
    cases ends with
    | nil => exact silent_of_blanks h.blank (fun _ hc => nomatch hc) silent_nil
    | cons c ends =>
        have hc := h.lineEnd c List.mem_cons_self
        refine silent_of_blanks h.blank ?_ (silent_cons_lineEnd hbehind hc)
        intro b hb
        obtain rfl : c = b := by simpa using hb
        exact isBlank_of_isLineEnd hc
  · obtain ⟨comment, rfl⟩ := List.head?_eq_some_iff.mp hhead
    refine silent_of_blanks h.blank ?_ (silent_cons_comment hbehind)
    intro b hb
    obtain rfl : '#' = b := by simpa using hb
    rfl

/-- What stands first on a line that is not blank is neither trivia nor a line end. -/
theorem first (h : Parts chars blanks rest ends) (hline : OneLine chars) {c : Char}
    {more : List Char} (hrest : rest = c :: more) (hc : c ≠ '#') :
    (lexeme c (more ++ ends)).1 ≠ .newline ∧
      (lexeme c (more ++ ends)).1.isTrivia = false := by
  subst hrest
  have hmem : '\n' ∉ blanks ++ c :: more := h.content_eq ▸ notMem_content hline
  refine ⟨fun hnewline => ?_, ?_⟩
  · obtain ⟨rfl, -⟩ | ⟨rfl, -, hhead⟩ := kind_eq_newline hnewline
    · exact hmem (by simp)
    · -- a carriage return before the line end would be part of that
      cases more with
      | nil => exact absurd (isLineEnd_last h.content_eq) (by decide)
      | cons d more =>
          obtain rfl : d = '\n' := by simpa using hhead
          exact hmem (by simp)
  · by_contra htrivia
    obtain hblank | hcomment := isTrivia_lexeme (Bool.of_not_eq_false htrivia)
    · rw [h.head c rfl] at hblank
      cases hblank
    · exact hc hcomment

end Parts

theorem leads_shift {stack : IndentStack} (hstack : 0 < stack.size) (column anchor : Nat)
    (range : TextRange) :
    Leads (stack.size - 1) (kinds (shift stack column anchor range).marks)
        ((shift stack column anchor range).stack.size - 1) ∧
      0 < (shift stack column anchor range).stack.size := by
  unfold shift
  split
  · refine ⟨fun more hmore => ⟨rfl, ?_⟩, Nat.succ_pos _⟩
    have hsize : (stack.push column).size - 1 = stack.size - 1 + 1 := by
      simp only [IndentStack.push, IndentStack.size, List.length_cons] at hstack ⊢
      omega
    rwa [hsize] at hmore
  · split
    · split
      · -- as many marks as columns are closed, the base column not among them
        rename_i count hcount
        have hlt : count < stack.size := (List.findIdx?_eq_some_iff_getElem.mp hcount).1
        have hsize : (stack.drop count).size = stack.size - count := List.length_drop ..
        rw [hsize]
        refine ⟨fun more hmore => ?_, by omega⟩
        have hdepth : stack.size - 1 = stack.size - count - 1 + count := by omega
        rw [kinds_marks _ _ rfl, hdepth]
        exact hmore.dedents
      · exact ⟨fun _ => id, hstack⟩
    · exact ⟨fun _ => id, hstack⟩

theorem kinds_leadingBlanks (offset : Nat) (blanks : List Char) :
    kinds (leadingBlanks offset blanks) = [] := by
  unfold leadingBlanks
  split <;> rfl

theorem leads_line (offset : Nat) {stack : IndentStack} {chars : List Char}
    (hline : EndsLine chars) (hstack : 0 < stack.size) :
    Leads (stack.size - 1) (kinds (line offset stack chars).1)
        ((line offset stack chars).2.1.size - 1) ∧
      0 < (line offset stack chars).2.1.size := by
  obtain ⟨ends, hparts⟩ := exists_parts chars
  unfold line
  extract_lets found blanks rest anchor shifted
  split
  · rename_i hblank
    exact ⟨(hparts.silent hline.oneLine hblank).leads offset _, hstack⟩
  · rename_i hfilled
    obtain ⟨hleads, hpos⟩ := leads_shift hstack (blanks.length + markerWidth rest) anchor
      (TextRange.ofWidth offset (byteWidth found))
    refine ⟨fun more hmore => ?_, hpos⟩
    have hdrop : chars.drop blanks.length = rest ++ ends := by
      conv_lhs => rw [hparts.chars_eq]
      exact List.drop_left
    dsimp only at hmore ⊢
    rw [kinds_append, kinds_append, kinds_leadingBlanks, List.nil_append, List.append_assoc,
      hdrop]
    have hne : rest ≠ [] := fun hnil => hfilled (.inl hnil)
    obtain ⟨c, behind, hrest⟩ := List.exists_cons_of_ne_nil hne
    have hc : c ≠ '#' := by
      rintro rfl
      exact hfilled (.inr (by rw [hrest]; rfl))
    obtain ⟨hnewline, htrivia⟩ := hparts.first hline.oneLine hrest hc
    have hends : EndsLine (rest ++ ends) := hparts.endsLine hline
    have hscan : Follows true (shifted.stack.size - 1)
        (kinds (scan anchor (rest ++ ends)) ++ more) := by
      rw [hrest] at hends ⊢
      exact follows_scan_front anchor hends hnewline htrivia hmore
    exact hleads _ hscan

/-! ## All lines -/

theorem leads_lines (offset : Nat) {stack : IndentStack} {rows : List (List Char)}
    (hrows : ∀ row ∈ rows, EndsLine row) (hstack : 0 < stack.size) :
    Leads (stack.size - 1) (kinds (lines offset stack rows).1.tokens)
      ((lines offset stack rows).2.size - 1) := by
  induction rows generalizing offset stack with
  | nil => exact fun _ => id
  | cons row rows ih =>
      obtain ⟨hleads, hpos⟩ := leads_line offset (hrows row List.mem_cons_self) hstack
      have hbehind := ih (offset + byteWidth row)
        (fun row hrow => hrows row (List.mem_cons_of_mem _ hrow)) hpos
      intro more hmore
      rw [lines]
      dsimp only
      rw [kinds_append, List.append_assoc]
      exact hleads _ (hbehind more hmore)

/-- A text that ends in a line end holds nothing but whole lines. -/
theorem endsLine_of_mem_splitLines {cs row : List Char}
    (hcs : cs = [] ∨ cs.getLast? = some '\n') (h : row ∈ splitLines cs) : EndsLine row := by
  induction cs generalizing row with
  | nil => cases h
  | cons c cs ih =>
      have hbehind : c = '\n' ∨ cs.getLast? = some '\n' := by
        cases cs with
        | nil => left; simpa using hcs
        | cons d cs => right; simpa using hcs
      rw [splitLines] at h
      split at h
      · rename_i hc
        obtain rfl | h := List.mem_cons.mp h
        · exact ⟨[], by rw [hc]; rfl, List.not_mem_nil⟩
        · refine ih ?_ h
          cases cs with
          | nil => exact .inl rfl
          | cons d cs => right; simpa using hcs
      · rename_i hc
        have hlast := hbehind.resolve_left hc
        split at h
        · rename_i hnil
          have hflatten := flatten_splitLines cs
          rw [hnil] at hflatten
          rw [← hflatten] at hlast
          cases hlast
        · rename_i line lines hlines
          rw [hlines] at ih
          obtain rfl | h := List.mem_cons.mp h
          · obtain ⟨front, rfl, hfront⟩ := ih (.inr hlast) List.mem_cons_self
            refine ⟨c :: front, rfl, ?_⟩
            rw [List.mem_cons]
            exact not_or.mpr ⟨fun h => hc h.symm, hfront⟩
          · exact ih (.inr hlast) (List.mem_cons_of_mem _ h)

end Layout

/-- The tokens of a text that ends in a line end follow the layout of its lines. -/
theorem follows_tokenize {text : String}
    (h : text = "" ∨ text.toList.getLast? = some '\n') :
    Nesting.Follows true 0 (Nesting.kinds (tokenize false text).tokens) := by
  have hcs : text.toList = [] ∨ text.toList.getLast? = some '\n' :=
    h.imp_left fun hempty => by rw [hempty]; rfl
  have hpos : 0 < IndentStack.fresh.size := by decide
  have hleads := Layout.leads_lines 0
    (fun row => Layout.endsLine_of_mem_splitLines hcs) hpos
  unfold tokenize
  dsimp only
  rw [Nesting.kinds_append]
  refine hleads _ ?_
  -- the marks at the end close what is still open
  have hclosed : Nesting.Follows true 0 [] := ⟨rfl, rfl⟩
  have hmark : SyntaxKind.dedent.isSynthetic = true := rfl
  simpa [hmark] using hclosed.dedents

end ModelWorkspace
