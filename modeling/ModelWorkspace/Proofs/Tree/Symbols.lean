import ModelWorkspace.Proofs.Token.Nesting
import ModelWorkspace.Proofs.Tree.Closure

/-!
# What a rule reports and leaves

A symbol is a token that is neither blank nor comment, of which only the kind counts, and
whether the next token follows without a blank or a comment between.  The latter matters
for dotted names alone.

Whether a rule accepts what it reads shows in two parts of its answer, the reports and the
tokens that are left; how these come about when readings are put together is told here, and
so is that skipping trivia changes no symbol.
-/

namespace ModelWorkspace

/-! ## Symbols -/

/-- A token as the grammar sees it. -/
structure Symbol where
  kind : SyntaxKind
  /-- Whether the next token is neither blank nor comment. -/
  joined : Bool
deriving DecidableEq, Repr

namespace Symbol

/-- Whether a token follows that is neither blank nor comment. -/
def joins : List Token → Bool
  | [] => false
  | t :: _ => !t.kind.isTrivia

/-- The symbols of a list of tokens. -/
def ofTokens : List Token → List Symbol
  | [] => []
  | t :: ts => if t.kind.isTrivia then ofTokens ts else ⟨t.kind, joins ts⟩ :: ofTokens ts

theorem ofTokens_trivia {t : Token} (h : t.kind.isTrivia = true) (ts : List Token) :
    ofTokens (t :: ts) = ofTokens ts := by
  simp [ofTokens, h]

theorem ofTokens_cons {t : Token} (h : t.kind.isTrivia = false) (ts : List Token) :
    ofTokens (t :: ts) = ⟨t.kind, joins ts⟩ :: ofTokens ts := by
  simp [ofTokens, h]

/-- Behind a symbol that is joined to the next one, the next token is that symbol. -/
theorem exists_cons_of_joins {ts : List Token} (h : joins ts = true) :
    ∃ t more, ts = t :: more ∧ t.kind.isTrivia = false := by
  cases ts with
  | nil => cases h
  | cons t more => exact ⟨t, more, rfl, by simpa [joins] using h⟩

theorem map_kind_ofTokens (tokens : List Token) :
    (ofTokens tokens).map kind = Nesting.kinds tokens :=
  Nesting.map_eq_kinds rfl (fun _ ts h => ofTokens_trivia h ts)
    (fun _ ts h => ⟨_, ofTokens_cons h ts, rfl⟩) tokens

end Symbol

/-! ## Readings put together -/

namespace Reading

variable {tokens left : List Token}

@[simp] theorem errors_nothing : (nothing tokens).errors = [] := rfl

@[simp] theorem rest_nothing : (nothing tokens).rest = tokens := rfl

@[simp] theorem errors_withLeaf (t : Token) (r : Reading tokens) :
    (r.withLeaf t).errors = r.errors := rfl

@[simp] theorem rest_withLeaf (t : Token) (r : Reading tokens) :
    (r.withLeaf t).rest = r.rest := rfl

@[simp] theorem errors_behind (t : Token) (r : Reading tokens) :
    (r.behind t).errors = r.errors := rfl

@[simp] theorem rest_behind (t : Token) (r : Reading tokens) :
    (r.behind t).rest = r.rest := rfl

@[simp] theorem errors_append (r : Reading tokens) (next : Reading r.rest) :
    (r.append next).errors = r.errors ++ next.errors := rfl

@[simp] theorem rest_append (r : Reading tokens) (next : Reading r.rest) :
    (r.append next).rest = next.rest := rfl

@[simp] theorem errors_followedBy (r : Reading tokens) (h : r.rest = left)
    (next : Reading left) : (r.followedBy h next).errors = r.errors ++ next.errors := rfl

@[simp] theorem rest_followedBy (r : Reading tokens) (h : r.rest = left)
    (next : Reading left) : (r.followedBy h next).rest = next.rest := rfl

@[simp] theorem errors_wrap (kind : SyntaxKind) (r : Reading tokens) :
    (r.wrap kind).errors = r.errors := rfl

@[simp] theorem rest_wrap (kind : SyntaxKind) (r : Reading tokens) :
    (r.wrap kind).rest = r.rest := rfl

@[simp] theorem errors_wrapFrom (kind : SyntaxKind) (first : Token) (r : Reading tokens) :
    (r.wrapFrom kind first).errors = r.errors := rfl

@[simp] theorem rest_wrapFrom (kind : SyntaxKind) (first : Token) (r : Reading tokens) :
    (r.wrapFrom kind first).rest = r.rest := rfl

@[simp] theorem errors_report (message : String) (range : TextRange) (r : Reading tokens) :
    (r.report message range).errors = ⟨message, range⟩ :: r.errors := rfl

@[simp] theorem rest_report (message : String) (range : TextRange) (r : Reading tokens) :
    (r.report message range).rest = r.rest := rfl

end Reading

namespace Guarded

variable {tokens others : List Token}

@[simp] theorem toReading_lift (g : Guarded tokens) (f : Reading tokens → Reading others) :
    (g.lift f).toReading = f g.toReading := rfl

@[simp] theorem signal_lift (g : Guarded tokens) (f : Reading tokens → Reading others) :
    (g.lift f).signal = g.signal := rfl

@[simp] theorem toReading_append (g : Guarded tokens) (next : Guarded g.rest) :
    (g.append next).toReading = g.toReading.append next.toReading := rfl

@[simp] theorem signal_append (g : Guarded tokens) (next : Guarded g.rest) :
    (g.append next).signal = next.signal := rfl

@[simp] theorem toReading_guarded (r : Reading tokens) (signal : Signal) :
    (r.guarded signal).toReading = r := rfl

@[simp] theorem signal_guarded (r : Reading tokens) (signal : Signal) :
    (r.guarded signal).signal = signal := rfl

end Guarded

namespace Signal

@[simp] theorem stops_never : never.stops = false := rfl

@[simp] theorem next_never : never.next = never := rfl

end Signal

/-! ## Trivia -/

namespace Grammar

open ModelWorkspace.Symbol

variable {tokens ts : List Token} {t : Token}

@[simp] theorem errors_skip (passes : SyntaxKind → Bool) (tokens : List Token) :
    (skip passes tokens).errors = [] :=
  skip_induction (P := fun _ r => r.errors = []) (fun _ => rfl) (fun _ _ _ _ hr => hr) tokens

@[simp] theorem errors_trivia (tokens : List Token) : (trivia tokens).errors = [] :=
  errors_skip _ tokens

@[simp] theorem errors_blank (tokens : List Token) : (blank tokens).errors = [] :=
  errors_skip _ tokens

/-- To set a line aside is reported. -/
@[simp] theorem errors_recoverLine_ne_nil (stop : Nat) (message : String)
    (tokens : List Token) : ¬ (recoverLine stop message tokens).errors = [] :=
  List.cons_ne_nil _ _

@[simp] theorem ofTokens_trivia_rest (tokens : List Token) :
    ofTokens (trivia tokens).rest = ofTokens tokens := by
  unfold trivia
  induction tokens with
  | nil => rfl
  | cons t ts ih =>
      rw [skip]
      split
      · rename_i h
        rw [ofTokens_trivia h]
        exact ih
      · rfl

theorem isTrivia_of_rest (h : (trivia tokens).rest = t :: ts) : t.kind.isTrivia = false :=
  passes_of_rest_skip h

/-- The symbols behind trivia. -/
theorem ofTokens_of_rest (h : (trivia tokens).rest = t :: ts) :
    ofTokens tokens = ⟨t.kind, joins ts⟩ :: ofTokens ts := by
  rw [← ofTokens_trivia_rest, h, ofTokens_cons (isTrivia_of_rest h)]

theorem ofTokens_of_rest_nil (h : (trivia tokens).rest = []) : ofTokens tokens = [] := by
  rw [← ofTokens_trivia_rest, h]
  rfl

/-- The next symbol stands behind the trivia. -/
theorem exists_rest_of_ofTokens {s : Symbol} {behind : List Symbol}
    (h : ofTokens tokens = s :: behind) :
    ∃ t ts, (trivia tokens).rest = t :: ts ∧ t.kind = s.kind ∧ ofTokens ts = behind := by
  cases hrest : (trivia tokens).rest with
  | nil =>
      rw [ofTokens_of_rest_nil hrest] at h
      cases h
  | cons t ts =>
      rw [ofTokens_of_rest hrest] at h
      obtain ⟨rfl, rfl⟩ := List.cons.inj h
      exact ⟨t, ts, rfl, rfl, rfl⟩

/-- Where no line end comes next, line ends are not skipped. -/
theorem blank_eq_trivia (h : ∀ s ∈ (ofTokens tokens).head?, s.kind ≠ .newline) :
    blank tokens = trivia tokens := by
  unfold blank trivia
  induction tokens with
  | nil => rfl
  | cons t ts ih =>
      rw [skip, skip]
      cases htrivia : t.kind.isTrivia with
      | true =>
          rw [ofTokens_trivia htrivia] at h
          simp [SyntaxKind.isSkipped, htrivia, ih h]
      | false =>
          rw [ofTokens_cons htrivia] at h
          have hkind : t.kind ≠ .newline := h _ rfl
          simp [SyntaxKind.isSkipped, htrivia, hkind]

end Grammar
end ModelWorkspace
