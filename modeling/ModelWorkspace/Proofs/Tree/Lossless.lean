import ModelWorkspace.Proofs.Token.Layout
import ModelWorkspace.Proofs.Tree.Closure

/-!
# Parsing loses no token

`Covers` relates what a rule answers to the tokens it was given: the leaves of its trees,
followed by the tokens that it left, are these tokens.  Every way to put readings together
keeps this (`closed_covers`), so each rule does.

A file leaves nothing, so the leaves of its tree are all tokens, also if reading was called
off somewhere on the way.
-/

namespace ModelWorkspace

/-- The leaves of what has been read, followed by what is left, are the given tokens. -/
def Reading.Covers {tokens : List Token} (r : Reading tokens) (all : List Token) : Prop :=
  Tree.allLeaves r.trees ++ r.rest = all

namespace Grammar

theorem closed_covers (stop : Nat) :
    Closed stop fun trees _ rest all => Tree.allLeaves trees ++ rest = all where
  start := fun _ => rfl
  leaf := fun h t => congrArg (t :: ·) h
  join := by
    intro trees errors rest all others later left h hothers
    rw [Tree.allLeaves_append, List.append_assoc, hothers, h]
  node := by
    intro trees errors rest all kind h _
    rw [Tree.allLeaves, Tree.leaves, Tree.allLeaves, List.append_nil, h]
  scalar := by
    intro trees errors rest all first h _ _
    rw [Tree.allLeaves, Tree.leaves, Tree.allLeaves, List.append_nil, h]
  report := fun h _ _ _ => h

/-- A file takes all tokens: what it does not read becomes leaves. -/
theorem covers_fileMembers (stop : Nat) (signal : Signal) (roots : Nat) (tokens : List Token) :
    (fileMembers stop signal roots tokens).Covers tokens ∧
      (fileMembers stop signal roots tokens).rest = [] :=
  (closed_covers stop).fileMembers signal roots tokens

end Grammar

theorem Parse.leaves_underSignal (signal : Signal) (completion : Bool) (text : String) :
    (Parse.underSignal signal completion text).1.tree.leaves =
      (tokenize completion text).tokens := by
  obtain ⟨hcovers, hrest⟩ := Grammar.covers_fileMembers (byteWidth text.toList) signal 0
    (tokenize completion text).tokens
  rw [Reading.Covers, hrest, List.append_nil] at hcovers
  exact hcovers

/-- Whatever the text is, and wherever reading it is called off: the tokens spell the text
without a gap, only marks of layout are empty, and the tree holds each token once, in
order. -/
theorem Parse.underSignal_lossless (signal : Signal) (completion : Bool) (text : String) :
    let tokens := (tokenize completion text).tokens
    let parse := (Parse.underSignal signal completion text).1
    tokens.flatMap Token.chars = text.toList ∧
      (∀ before t after, tokens = before ++ t :: after →
        t.offset = (before.map Token.width).sum) ∧
      (∀ t ∈ tokens, t.chars = [] ↔ t.kind = .indent ∨ t.kind = .dedent) ∧
      parse.tokens = tokens ∧ parse.tree.leaves = tokens ∧ parse.tree.text = text := by
  intro tokens parse
  have htiles : Tiles 0 text.toList tokens := tiles_tokenize completion text
  have hleaves : parse.tree.leaves = tokens := leaves_underSignal signal completion text
  refine ⟨htiles.flatMap_chars, ?_, ?_, rfl, hleaves, ?_⟩
  · intro before t after hsplit
    rw [hsplit] at htiles
    simpa using htiles.offset_eq
  · intro t ht
    have hempty : t.chars = [] ↔ t.kind.isSynthetic = true := emptyIffMark_tokenize ht
    rw [hempty]
    cases t.kind <;> simp [SyntaxKind.isSynthetic]
  · rw [Tree.text, hleaves, htiles.flatMap_chars, String.ofList_toList]

end ModelWorkspace
