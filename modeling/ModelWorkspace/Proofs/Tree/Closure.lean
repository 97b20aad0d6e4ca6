import ModelWorkspace.Tree.Parse

/-!
# What every rule of the grammar keeps

A rule answers with trees, reports and the tokens that it left.  `Closed` says of a relation
between such an answer and the tokens that it accounts for that it holds of nothing read, and
that every way to put readings together keeps it.  Then each rule keeps it, whichever of its
branches is taken, and so do files (`Closed.fileMembers`).

What the rules have in common beyond that is part of `Closed`: a scalar begins with a token
that a value can begin with, and a report is about a token or the end of the text.

The rules for properties and blocks call each other, on shorter lists only: `Blocks` holds
what is known of all of them up to a length.
-/

namespace ModelWorkspace

/-- A relation between what is read and the tokens that it accounts for: trees, reports, the
tokens that are left, and all tokens. -/
abbrev ReadingRelation :=
  List Tree → List SyntaxError → List Token → List Token → Prop

namespace Reading

/-- A reading stands in a relation to the tokens that it accounts for. -/
def Meets (C : ReadingRelation) {tokens : List Token} (r : Reading tokens)
    (all : List Token) : Prop :=
  C r.trees r.errors r.rest all

end Reading

namespace Grammar

/-! ## Tokens that are skipped -/

/-- What is skipped is one leaf after another, each of a kind that passes. -/
theorem skip_induction {P : ∀ tokens, Reading tokens → Prop} {passes : SyntaxKind → Bool}
    (hnothing : ∀ tokens, P tokens (.nothing tokens))
    (hleaf : ∀ t ts (r : Reading ts), passes t.kind = true → P ts r → P (t :: ts) (r.withLeaf t))
    (tokens : List Token) : P tokens (skip passes tokens) := by
  induction tokens with
  | nil => exact hnothing []
  | cons t ts ih =>
      unfold skip
      split
      · rename_i ht
        exact hleaf t ts _ ht ih
      · exact hnothing _

/-- What is left behind skipped tokens begins with one that does not pass. -/
theorem passes_of_rest_skip {passes : SyntaxKind → Bool} {tokens ts : List Token} {t : Token}
    (h : (skip passes tokens).rest = t :: ts) : passes t.kind = false := by
  induction tokens with
  | nil => cases h
  | cons first tokens ih =>
      rw [skip] at h
      split at h
      · exact ih h
      · rename_i hfirst
        obtain ⟨rfl, rfl⟩ := List.cons.inj h
        exact eq_false_of_ne_true hfirst

/-! ## Relations that are kept -/

/-- Every way to put readings together keeps a relation; `stop` is the width of the text. -/
structure Closed (stop : Nat) (C : ReadingRelation) : Prop where
  start : ∀ tokens, C [] [] tokens tokens
  leaf : ∀ {trees errors rest all}, C trees errors rest all → ∀ t,
    C (.leaf t :: trees) errors rest (t :: all)
  join : ∀ {trees errors rest all others later left}, C trees errors rest all →
    C others later left rest → C (trees ++ others) (errors ++ later) left all
  node : ∀ {trees errors rest all kind}, C trees errors rest all → kind ≠ .scalar →
    C [.node kind trees] errors rest all
  scalar : ∀ {trees errors rest all first}, C trees errors rest (first :: all) →
    beginsValue first.kind = true → (Tree.allLeaves trees).head? = some first →
    C [.node .scalar trees] errors rest (first :: all)
  report : ∀ {trees errors rest all}, C trees errors rest all → ∀ message range,
    range = TextRange.empty stop ∨ (∃ t ∈ all, range = t.range) →
    C trees (⟨message, range⟩ :: errors) rest all

namespace Closed

open Reading

variable {stop : Nat} {C : ReadingRelation} (hC : Closed stop C)

include hC

/-! ## Putting readings together -/

section Combinators

variable {tokens left all : List Token} {r : Reading tokens}

theorem nothing (tokens : List Token) : (Reading.nothing tokens).Meets C tokens :=
  hC.start tokens

theorem withLeaf (h : r.Meets C all) (t : Token) : (r.withLeaf t).Meets C (t :: all) :=
  hC.leaf h t

theorem append (h : r.Meets C all) {next : Reading r.rest} (hnext : next.Meets C r.rest) :
    (r.append next).Meets C all :=
  hC.join h hnext

theorem followedBy (h : r.Meets C all) (hrest : r.rest = left) {next : Reading left}
    (hnext : next.Meets C left) : (r.followedBy hrest next).Meets C all := by
  subst hrest
  exact hC.join h hnext

theorem wrap (h : r.Meets C all) {kind : SyntaxKind} (hkind : kind ≠ .scalar) :
    (r.wrap kind).Meets C all :=
  hC.node h hkind

theorem wrapFrom (h : r.Meets C all) {kind : SyntaxKind} (hkind : kind ≠ .scalar)
    (first : Token) : (r.wrapFrom kind first).Meets C (first :: all) :=
  hC.node (hC.leaf h first) hkind

/-- A report on one of the tokens. -/
theorem reportAt (h : r.Meets C all) (message : String) {t : Token} (ht : t ∈ all) :
    (r.report message t.range).Meets C all :=
  hC.report h message t.range (Or.inr ⟨t, ht, rfl⟩)

/-- A report on the end of the text. -/
theorem reportEnd (h : r.Meets C all) (message : String) :
    (r.report message (TextRange.empty stop)).Meets C all :=
  hC.report h message _ (Or.inl rfl)

theorem leaves (tokens : List Token) : (Reading.leaves tokens).Meets C tokens := by
  have hleaves : C (tokens.map .leaf) [] [] tokens := by
    induction tokens with
    | nil => exact hC.start []
    | cons t ts ih => exact hC.leaf ih t
  exact hleaves

end Combinators

/-! ## Rules without blocks -/

theorem skip (passes : SyntaxKind → Bool) (tokens : List Token) :
    (skip passes tokens).Meets C tokens :=
  skip_induction (P := fun tokens r => r.Meets C tokens) hC.nothing
    (fun t _ _ _ hr => hC.withLeaf hr t) tokens

theorem trivia (tokens : List Token) : (trivia tokens).Meets C tokens :=
  hC.skip _ tokens

theorem blank (tokens : List Token) : (blank tokens).Meets C tokens :=
  hC.skip _ tokens

theorem lineEnd (tokens : List Token) : (lineEnd tokens).Meets C tokens := by
  cases tokens with
  | nil => exact hC.nothing []
  | cons t ts =>
      rw [Grammar.lineEnd]
      split
      · exact hC.withLeaf (hC.nothing ts) t
      · exact hC.nothing _

theorem errorFrom (first : Token) (tokens : List Token) :
    (errorFrom first tokens).Meets C (first :: tokens) :=
  hC.wrapFrom (hC.skip _ tokens) (by decide) first

theorem recover (message : String) (tokens : List Token) :
    (recover stop message tokens).Meets C tokens := by
  cases tokens with
  | nil => exact hC.reportEnd (hC.wrap (hC.nothing []) (by decide)) message
  | cons t ts =>
      have hreport : ∀ {node : Reading (t :: ts)}, node.Meets C (t :: ts) →
          (node.report message t.range).Meets C (t :: ts) :=
        fun h => hC.reportAt h message List.mem_cons_self
      -- which tokens are set aside depends on the first one, the report does not
      refine hreport ?_
      dsimp only
      split
      · exact hC.wrap (hC.nothing (t :: ts)) (by decide)
      · split
        · exact hC.wrapFrom (hC.nothing ts) (by decide) t
        · exact hC.errorFrom t ts

theorem recoverLine (message : String) (tokens : List Token) :
    (recoverLine stop message tokens).Meets C tokens :=
  hC.append (hC.recover message tokens) (hC.lineEnd _)

theorem nameTail (tokens : List Token) : (nameTail stop tokens).Meets C tokens := by
  fun_induction Grammar.nameTail stop tokens with
  | case1 dot ident ts _ _ ih => exact hC.withLeaf (hC.withLeaf ih ident) dot
  | case2 dot ident ts =>
      refine hC.reportAt (hC.withLeaf (hC.nothing _) dot) _ ?_
      exact List.mem_cons_of_mem dot List.mem_cons_self
  | case3 => exact hC.nothing _
  | case4 dot => exact hC.reportEnd (hC.withLeaf (hC.nothing _) dot) _
  | case5 => exact hC.nothing _
  | case6 => exact hC.nothing _

theorem scalarFrom {first : Token} (hfirst : beginsValue first.kind = true)
    (tokens : List Token) : (Grammar.scalar stop first tokens).Meets C (first :: tokens) := by
  unfold Grammar.scalar
  split
  · exact hC.scalar (hC.wrapFrom (hC.nameTail tokens) (by decide) first) hfirst rfl
  · exact hC.scalar (hC.withLeaf (hC.nothing tokens) first) hfirst rfl

theorem listElement (first : Token) (tokens : List Token) :
    (listElement stop first tokens).Meets C (first :: tokens) := by
  unfold Grammar.listElement
  split
  · rename_i hfirst
    exact hC.scalarFrom (Bool.and_eq_true_iff.mp hfirst).1 tokens
  · exact hC.reportAt (hC.wrapFrom (hC.nothing tokens) (by decide) first) _
      List.mem_cons_self

theorem listElements (tokens : List Token) : (listElements stop tokens).Meets C tokens := by
  fun_induction Grammar.listElements stop tokens with
  | case1 => exact hC.nothing _
  | case2 => exact hC.nothing _
  | case3 t ts _ element spaced h => exact hC.append (hC.listElement t ts) (hC.trivia _)
  | case4 t ts _ element spaced comma more h hkind space _ ih =>
      have hspaced := hC.append (hC.listElement t ts) (hC.trivia _)
      exact hC.followedBy hspaced h (hC.withLeaf (hC.append (hC.trivia more) ih) comma)
  | case5 t ts _ element spaced comma more h hkind =>
      exact hC.append (hC.listElement t ts) (hC.trivia _)

theorem closingBracket (tokens : List Token) : (closingBracket stop tokens).Meets C tokens := by
  cases tokens with
  | nil => exact hC.reportEnd (hC.nothing []) _
  | cons t ts =>
      rw [Grammar.closingBracket]
      split
      · exact hC.withLeaf (hC.nothing ts) t
      · exact hC.reportAt (hC.nothing (t :: ts)) _ List.mem_cons_self

theorem value {first : Token} (hfirst : beginsValue first.kind = true) (tokens : List Token) :
    (value stop first tokens).Meets C (first :: tokens) := by
  unfold Grammar.value
  split
  · have helements := hC.append (hC.trivia tokens) (hC.listElements _)
    exact hC.wrapFrom (hC.append helements (hC.closingBracket _)) (by decide) first
  · exact hC.scalarFrom hfirst tokens

end Closed

/-! ## Properties and blocks -/

/-- The rules for properties and blocks keep a relation on lists shorter than a bound. -/
structure Blocks (stop : Nat) (C : ReadingRelation) (bound : Nat) : Prop where
  valueEnd : ∀ signal tokens, tokens.length < bound →
    (valueEnd stop signal tokens).Meets C tokens
  property : ∀ signal key tokens, tokens.length < bound →
    (property stop signal key tokens).Meets C (key :: tokens)
  propertyOrKey : ∀ signal key tokens, tokens.length < bound →
    (propertyOrKey stop signal key tokens).Meets C (key :: tokens)
  propertyValue : ∀ signal tokens, tokens.length < bound →
    (propertyValue stop signal tokens).Meets C tokens
  itemProperties : ∀ signal tokens, tokens.length < bound →
    (itemProperties stop signal tokens).Meets C tokens
  listItem : ∀ signal dash tokens, tokens.length < bound →
    (listItem stop signal dash tokens).Meets C (dash :: tokens)
  members : ∀ signal tokens, tokens.length < bound →
    (members stop signal tokens).Meets C tokens

theorem Blocks.mono {stop bound smaller : Nat} {C : ReadingRelation} (h : Blocks stop C bound)
    (hle : smaller ≤ bound) : Blocks stop C smaller where
  valueEnd := fun signal tokens hlt => h.valueEnd signal tokens (by omega)
  property := fun signal key tokens hlt => h.property signal key tokens (by omega)
  propertyOrKey := fun signal key tokens hlt => h.propertyOrKey signal key tokens (by omega)
  propertyValue := fun signal tokens hlt => h.propertyValue signal tokens (by omega)
  itemProperties := fun signal tokens hlt => h.itemProperties signal tokens (by omega)
  listItem := fun signal dash tokens hlt => h.listItem signal dash tokens (by omega)
  members := fun signal tokens hlt => h.members signal tokens (by omega)

theorem length_lt_of_rest {tokens ts : List Token} {t : Token} {r : Reading tokens}
    (h : r.rest = t :: ts) : ts.length < tokens.length := by
  have hle := r.rest_length_le
  rw [h] at hle
  exact hle

namespace Closed

open Reading

variable {stop : Nat} {C : ReadingRelation} (hC : Closed stop C)
  {signal : Signal} {tokens ts : List Token} {t : Token}

include hC

/-- A block that nothing stands in front of is an error, and so is its indentation. -/
theorem unexpectedBlock (hblock : (members stop signal ts).Meets C ts) (t : Token)
    (message : String) :
    ((((members stop signal ts).wrapFrom .block t).wrap .error).report message t.range).Meets C
      (t :: ts) :=
  hC.reportAt (hC.wrap (hC.wrapFrom hblock (by decide) t) (by decide)) message
    List.mem_cons_self

theorem valueEnd (ih : Blocks stop C tokens.length) :
    (valueEnd stop signal tokens).Meets C tokens := by
  have hspace := hC.trivia tokens
  rw [Grammar.valueEnd]
  dsimp only
  split
  · exact hspace
  · rename_i t ts h
    split
    · exact hC.followedBy hspace h (hC.withLeaf (hC.nothing ts) t)
    · split
      · exact hspace
      · split
        · have hblock := ih.members signal ts (length_lt_of_rest h)
          exact hC.followedBy hspace h (hC.unexpectedBlock hblock t _)
        · exact hC.followedBy hspace h (hC.recoverLine _ _)

theorem propertyValue (ih : Blocks stop C tokens.length) :
    (propertyValue stop signal tokens).Meets C tokens := by
  have hspace := hC.trivia tokens
  rw [Grammar.propertyValue]
  dsimp only
  split
  · exact hspace
  · rename_i t ts h
    have hts := length_lt_of_rest h
    split
    · -- a block may follow the end of the line
      have hlines := hC.blank ts
      split
      · exact hC.followedBy hspace h (hC.withLeaf hlines t)
      · rename_i first more h'
        split
        · have hmore := length_lt_of_rest h'
          have hblock := hC.wrapFrom (ih.members signal more (by omega))
            (by decide : SyntaxKind.block ≠ .scalar) first
          exact hC.followedBy hspace h (hC.withLeaf (hC.followedBy hlines h' hblock) t)
        · exact hC.followedBy hspace h (hC.withLeaf hlines t)
    · split
      · rename_i hbegins
        have hrest := (Grammar.value stop t ts).rest_length_le
        have hline := ih.valueEnd signal (Grammar.value stop t ts).rest (by omega)
        exact hC.followedBy hspace h (hC.append (hC.value hbegins ts) hline)
      · exact hC.followedBy hspace h (hC.recoverLine _ _)

theorem property (ih : Blocks stop C tokens.length) (key : Token) :
    (property stop signal key tokens).Meets C (key :: tokens) := by
  have hspace := hC.trivia tokens
  rw [Grammar.property]
  dsimp only
  split
  · rename_i h
    exact hC.wrapFrom (hC.followedBy hspace h (hC.recoverLine _ _)) (by decide) key
  · rename_i colon more h
    split
    · have hvalue := ih.propertyValue signal more (length_lt_of_rest h)
      exact hC.wrapFrom (hC.followedBy hspace h (hC.withLeaf hvalue colon)) (by decide) key
    · exact hC.wrapFrom (hC.followedBy hspace h (hC.recoverLine _ _)) (by decide) key

theorem propertyOrKey (ih : Blocks stop C tokens.length) (key : Token) :
    (propertyOrKey stop signal key tokens).Meets C (key :: tokens) := by
  rw [Grammar.propertyOrKey]
  split
  · exact hC.withLeaf (hC.nothing tokens) key
  · exact hC.property ih key

/-- A property with the further properties of an item behind it. -/
theorem firstProperty (ih : Blocks stop C tokens.length) (hts : ts.length < tokens.length) :
    ((Grammar.property stop signal t ts).append
      (Grammar.itemProperties stop (Grammar.property stop signal t ts).signal
        (Grammar.property stop signal t ts).rest)).Meets C (t :: ts) := by
  have hrest := (Grammar.property stop signal t ts).rest_length_le
  exact hC.append (ih.property signal t ts hts) (ih.itemProperties _ _ (by omega))

theorem itemProperties (ih : Blocks stop C tokens.length) :
    (itemProperties stop signal tokens).Meets C tokens := by
  have hspace := hC.blank tokens
  rw [Grammar.itemProperties]
  dsimp only
  split
  · exact hspace
  · rename_i t ts h
    split
    · split
      · exact hspace
      · split
        · exact hspace
        · exact hC.followedBy hspace h (hC.firstProperty ih (length_lt_of_rest h))
    · exact hspace

theorem listItem (ih : Blocks stop C tokens.length) (dash : Token) :
    (listItem stop signal dash tokens).Meets C (dash :: tokens) := by
  have hspace := hC.trivia tokens
  rw [Grammar.listItem]
  dsimp only
  refine hC.wrapFrom ?_ (by decide) dash
  split
  · exact hspace
  · rename_i t ts h
    have hts := length_lt_of_rest h
    split
    · split
      · exact hspace
      · exact hC.followedBy hspace h (hC.firstProperty ih hts)
    · split
      · rename_i hbegins
        have hrest := (Grammar.value stop t ts).rest_length_le
        have hline := ih.valueEnd signal (Grammar.value stop t ts).rest (by omega)
        exact hC.followedBy hspace h (hC.append (hC.value hbegins ts) hline)
      · split
        · exact hC.followedBy hspace h
            (hC.reportAt (hC.withLeaf (hC.nothing ts) t) _ List.mem_cons_self)
        · exact hC.followedBy hspace h (hC.recoverLine _ _)

/-- A line that is set aside from its first token on. -/
theorem unexpectedLine (t : Token) (ts : List Token) (message : String) :
    ((Grammar.errorFrom t ts).report message t.range).Meets C (t :: ts) :=
  hC.reportAt (hC.errorFrom t ts) message List.mem_cons_self

theorem members (ih : Blocks stop C tokens.length) :
    (members stop signal tokens).Meets C tokens := by
  have hspace := hC.blank tokens
  rw [Grammar.members]
  dsimp only
  split
  · exact hspace
  · rename_i t ts h
    have hts := length_lt_of_rest h
    split
    · exact hspace
    · split
      · exact hC.followedBy hspace h (hC.withLeaf (hC.nothing ts) t)
      · refine hC.followedBy hspace h (hC.append ?_ ?_)
        · split
          · exact ih.propertyOrKey _ t ts hts
          · split
            · exact ih.listItem _ t ts hts
            · split
              · exact hC.unexpectedBlock (ih.members _ ts hts) t _
              · exact hC.unexpectedLine t ts _
        · exact ih.members _ _ (Nat.lt_of_le_of_lt (Reading.rest_length_le _) hts)

theorem blocks (bound : Nat) : Blocks stop C bound := by
  induction bound with
  | zero => constructor <;> intros <;> contradiction
  | succ bound ih =>
      have hbelow : ∀ {tokens : List Token}, tokens.length < bound + 1 →
          Blocks stop C tokens.length := fun hlt => ih.mono (by omega)
      exact
        { valueEnd := fun _ _ hlt => hC.valueEnd (hbelow hlt)
          property := fun _ key _ hlt => hC.property (hbelow hlt) key
          propertyOrKey := fun _ key _ hlt => hC.propertyOrKey (hbelow hlt) key
          propertyValue := fun _ _ hlt => hC.propertyValue (hbelow hlt)
          itemProperties := fun _ _ hlt => hC.itemProperties (hbelow hlt)
          listItem := fun _ dash _ hlt => hC.listItem (hbelow hlt) dash
          members := fun _ _ hlt => hC.members (hbelow hlt) }

/-! ## Files -/

/-- A file takes all tokens: what it does not read becomes leaves. -/
theorem fileMembers (signal : Signal) (roots : Nat) (tokens : List Token) :
    (fileMembers stop signal roots tokens).Meets C tokens ∧
      (fileMembers stop signal roots tokens).rest = [] := by
  induction hlength : tokens.length using Nat.strongRecOn
    generalizing signal roots tokens with
  | ind n ih =>
      have hspace := hC.blank tokens
      rw [Grammar.fileMembers]
      dsimp only
      split
      · rename_i h
        exact ⟨hspace, h⟩
      · rename_i t ts h
        have hts := length_lt_of_rest h
        split
        · exact ⟨hC.followedBy hspace h (hC.leaves (t :: ts)), rfl⟩
        · -- one member, and then the members behind it
          have hblocks := hC.blocks tokens.length
          have hmember : ∀ {member : Guarded ts}, member.Meets C (t :: ts) → ∀ roots,
              ((Grammar.blank tokens).followedBy h ((member.append
                (Grammar.fileMembers stop member.signal roots member.rest)).behind t)).Meets
                  C tokens ∧
              (Grammar.fileMembers stop member.signal roots member.rest).rest = [] := by
            intro member hmember roots
            have hle := member.rest_length_le
            obtain ⟨hothers, hrest⟩ :=
              ih member.rest.length (by omega) member.signal roots member.rest rfl
            exact ⟨hC.followedBy hspace h (hC.append hmember hothers), hrest⟩
          refine hmember ?_ _
          split
          · have hroot := hblocks.propertyOrKey signal.next t ts hts
            split
            · exact hC.reportAt hroot _ List.mem_cons_self
            · exact hroot
          · split
            · exact hC.unexpectedBlock (hblocks.members _ ts hts) t _
            · split
              · have hempty := hC.wrap (hC.nothing (t :: ts))
                  (by decide : SyntaxKind.error ≠ .scalar)
                have hdedent := hC.append hempty (hC.withLeaf (hC.nothing ts) t)
                exact hC.reportAt hdedent _ List.mem_cons_self
              · exact hC.unexpectedLine t ts _

end Closed

end Grammar
end ModelWorkspace
