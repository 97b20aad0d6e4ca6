import ModelWorkspace.Proofs.Token.Nesting

/-!
# Signs

A sign is a token that is neither blank nor comment, as far as it is looked at when a text is
read: its kind, the text of a literal, and whether it is tied to the next token.  The latter
is asked where nothing may stand between two tokens, of dotted names and of line ends only.

Two lists of tokens are alike if their signs are the same; or if they are the same up to a
line end that only one of them has, in front of the marks that end the blocks at the end of
the text.
-/

namespace ModelWorkspace

/-- A token as far as it is looked at. -/
structure Sign where
  kind : SyntaxKind
  /-- The text, if the token is a literal. -/
  chars : List Char
  /-- Whether the next token is the one that may have to follow directly. -/
  tied : Bool
deriving DecidableEq, Repr

namespace Sign

/-- The kind of token that is asked for directly behind a token of a kind. -/
def partner? : SyntaxKind → Option SyntaxKind
  | .ident => some .dot
  | .dot => some .ident
  | .newline | .indent => some .newline
  | _ => none

/-- Whether a token is tied to the next one, by the kinds of both. -/
def ties (kind : SyntaxKind) (next : Option SyntaxKind) : Bool :=
  (partner? kind).isSome && partner? kind == next

/-- The kind of the first token. -/
def first? (tokens : List Token) : Option SyntaxKind :=
  tokens.head?.map Token.kind

/-- The text of a literal. -/
def textOf (t : Token) : List Char :=
  if t.kind.isLiteral then t.chars else []

/-- The sign of a token in front of a token of the kind `next`. -/
def ofToken (t : Token) (next : Option SyntaxKind) : Sign :=
  ⟨t.kind, textOf t, ties t.kind next⟩

/-- The signs of tokens in front of a token of the kind `next`. -/
def before (next : Option SyntaxKind) : List Token → List Sign
  | [] => []
  | t :: ts =>
    if t.kind.isTrivia then before next ts
    else ofToken t ((first? ts).or next) :: before next ts

/-- The signs of tokens that nothing follows. -/
def ofTokens (tokens : List Token) : List Sign :=
  before none tokens

/-- The sign of a token of layout with no line end behind it. -/
def mark (kind : SyntaxKind) : Sign :=
  ⟨kind, [], false⟩

variable {t : Token} {ts us : List Token} {next : Option SyntaxKind}

theorem before_trivia (h : t.kind.isTrivia = true) (ts : List Token) :
    before next (t :: ts) = before next ts := by
  simp [before, h]

theorem before_cons (h : t.kind.isTrivia = false) (ts : List Token) :
    before next (t :: ts) = ofToken t ((first? ts).or next) :: before next ts := by
  simp [before, h]

theorem first?_append (ts us : List Token) :
    first? (ts ++ us) = (first? ts).or (first? us) := by
  cases ts <;> rfl

theorem before_append (ts us : List Token) :
    before next (ts ++ us) = before ((first? us).or next) ts ++ before next us := by
  induction ts with
  | nil => rfl
  | cons t ts ih =>
      cases h : t.kind.isTrivia with
      | true => simp only [List.cons_append, before_trivia h, ih]
      | false =>
          simp only [List.cons_append, before_cons h, ih, first?_append, Option.or_assoc]

theorem ofTokens_trivia (h : t.kind.isTrivia = true) (ts : List Token) :
    ofTokens (t :: ts) = ofTokens ts :=
  before_trivia h ts

theorem ofTokens_cons (h : t.kind.isTrivia = false) (ts : List Token) :
    ofTokens (t :: ts) = ofToken t (first? ts) :: ofTokens ts := by
  rw [ofTokens, before_cons h, Option.or_none]
  rfl

theorem map_kind_ofTokens (tokens : List Token) :
    (ofTokens tokens).map kind = Nesting.kinds tokens :=
  Nesting.map_eq_kinds rfl (fun _ ts h => ofTokens_trivia h ts)
    (fun _ ts h => ⟨_, ofTokens_cons h ts, rfl⟩) tokens

end Sign

/-! ## Lists that are alike -/

/-- How two lists of tokens may end. -/
inductive Ending where
  /-- In the same way. -/
  | same
  /-- With a line end in front of the last marks in the second list only. -/
  | newline
deriving DecidableEq

/-- The signs are the same, up to the ending. -/
def Alike : Ending → List Token → List Token → Prop
  | .same, ts, us => Sign.ofTokens ts = Sign.ofTokens us
  | .newline, ts, us => ∃ common count,
      Sign.ofTokens ts = common ++ List.replicate count (Sign.mark .dedent) ∧
      Sign.ofTokens us =
        common ++ Sign.mark .newline :: List.replicate count (Sign.mark .dedent)

namespace Alike

variable {ending : Ending} {ts us ts' us' : List Token} {t u : Token}

/-- The same signs in front change nothing. -/
theorem append_left (h : Alike ending ts us) {front : List Sign}
    (hts : Sign.ofTokens ts' = front ++ Sign.ofTokens ts)
    (hus : Sign.ofTokens us' = front ++ Sign.ofTokens us) : Alike ending ts' us' := by
  cases ending with
  | same => exact hts.trans ((congrArg (front ++ ·) h).trans hus.symm)
  | newline =>
      obtain ⟨common, count, hcommon, hcommon'⟩ := h
      refine ⟨front ++ common, count, ?_, ?_⟩
      · rw [hts, hcommon, List.append_assoc]
      · rw [hus, hcommon', List.append_assoc]

/-- What skips signs in front, but stops at the end of a block, leaves lists that are alike.
They end in the same way if all is skipped up to the line end that only one of them has. -/
theorem dropWhile (h : Alike ending ts us) {p : Sign → Bool}
    (hdedent : p (Sign.mark .dedent) = false)
    (hts : Sign.ofTokens ts' = (Sign.ofTokens ts).dropWhile p)
    (hus : Sign.ofTokens us' = (Sign.ofTokens us).dropWhile p) :
    ∃ ending', (ending' = .newline → ending = .newline) ∧
      (p (Sign.mark .newline) = false → ending' = ending) ∧ Alike ending' ts' us' := by
  cases ending with
  | same =>
      change Sign.ofTokens ts = Sign.ofTokens us at h
      exact ⟨.same, id, fun _ => rfl, hts.trans ((congrArg _ h).trans hus.symm)⟩
  | newline =>
      obtain ⟨common, count, hcommon, hcommon'⟩ := h
      have hmarks : ∀ count, (List.replicate count (Sign.mark .dedent)).dropWhile p =
          List.replicate count (Sign.mark .dedent) := by
        intro count
        cases count with
        | zero => rfl
        | succ count => rw [List.replicate_succ, List.dropWhile_cons_of_neg (by simp [hdedent])]
      rw [hcommon, List.dropWhile_append, hmarks] at hts
      rw [hcommon', List.dropWhile_append] at hus
      cases hnewline : p (Sign.mark .newline) with
      | false =>
          rw [List.dropWhile_cons_of_neg (by simp [hnewline])] at hus
          refine ⟨.newline, id, fun _ => rfl, common.dropWhile p, count, ?_, ?_⟩
          · rw [hts]; split <;> simp_all
          · rw [hus]; split <;> simp_all
      | true =>
          rw [List.dropWhile_cons_of_pos hnewline, hmarks] at hus
          cases hempty : (common.dropWhile p).isEmpty with
          | true =>
              rw [hempty, if_pos rfl] at hts hus
              exact ⟨.same, by simp, by simp, hts.trans hus.symm⟩
          | false =>
              rw [hempty, if_neg (by decide)] at hts hus
              exact ⟨.newline, id, by simp, common.dropWhile p, count, hts, hus⟩

end Alike

end ModelWorkspace
