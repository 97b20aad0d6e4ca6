import ModelWorkspace.Proofs.Token.Signs
import ModelWorkspace.Proofs.Tree.Blocks
import ModelWorkspace.Proofs.Tree.Core
import ModelWorkspace.Proofs.Tree.Rules

/-!
# Reading what is alike

Two lists of tokens that are alike are read side by side.  The readings agree (`Agrees`) if
their trees have the same core, and if one reports something whenever the other does.  More is
kept in step by step, and less behind the place where the lists differ:

* up to the line end that only the second list has, both report the same messages, and what
  they leave is alike (`InStep`);
* behind it the lists are the same again, so nothing but the reports on that line end may
  differ: the first side may have reported that a value is missing, where the second side
  finds the line end that ends the key.  There must be an excuse for it (`Excused`);
* a list that is not closed may take the end of its block for an element, one side before the
  other.  Then both have reported something, and only the ends of blocks are left, of which
  nothing has a core (`Quiet`).

Each way to put readings together keeps this (`Agrees.append` above all), and so do the rules
that read no block.
-/

namespace ModelWorkspace
namespace Grammar

open Nesting

variable {ending : Ending} {stop stop' depth : Nat} {tokens tokens' ts us : List Token}
  {t u : Token} {excuse : Prop}

/-! ## What comes next -/

/-- No trivia stands in front. -/
def Front (tokens : List Token) : Prop :=
  ∀ t ∈ tokens.head?, t.kind.isTrivia = false

/-- Nothing but line ends and the ends of blocks is left. -/
def Closing (tokens : List Token) : Prop :=
  ∀ kind ∈ kinds tokens, kind = .newline ∨ kind = .dedent

/-- Two tokens have the same sign, with these tokens behind them. -/
structure Matches (t : Token) (ts : List Token) (u : Token) (us : List Token) : Prop where
  kind : t.kind = u.kind
  text : Sign.textOf t = Sign.textOf u
  tied : Sign.ties t.kind (Sign.first? ts) = Sign.ties t.kind (Sign.first? us)

/-- What stands in front of two lists that are alike. -/
inductive Ahead (ending : Ending) : List Token → List Token → Prop
  /-- Tokens with the same sign. -/
  | both {t u : Token} {ts us : List Token} (same : Matches t ts u us)
      (behind : Alike ending ts us) : Ahead ending (t :: ts) (u :: us)
  /-- Nothing. -/
  | none (only : ending = .same) : Ahead ending [] []
  /-- The line end that only the second one has. -/
  | newline {ts us : List Token} {u : Token} (only : ending = .newline)
      (kind : u.kind = .newline) (first : ∀ t ∈ ts.head?, t.kind = .dedent)
      (ends : ∀ kind ∈ kinds us, kind = .dedent) (behind : Alike .same ts us) :
      Ahead ending ts (u :: us)

theorem exists_cons_of_ofTokens {s : Sign} {behind : List Sign} (hfront : Front tokens)
    (h : Sign.ofTokens tokens = s :: behind) :
    ∃ t ts, tokens = t :: ts ∧ Sign.ofToken t (Sign.first? ts) = s ∧
      Sign.ofTokens ts = behind := by
  cases tokens with
  | nil => cases h
  | cons t ts =>
      rw [Sign.ofTokens_cons (hfront t rfl)] at h
      obtain ⟨hs, hbehind⟩ := List.cons.inj h
      exact ⟨t, ts, rfl, hs, hbehind⟩

theorem eq_nil_of_ofTokens (hfront : Front tokens) (h : Sign.ofTokens tokens = []) :
    tokens = [] := by
  cases tokens with
  | nil => rfl
  | cons t ts =>
      rw [Sign.ofTokens_cons (hfront t rfl)] at h
      cases h

theorem matches_of_ofToken {s : Sign} (ht : Sign.ofToken t (Sign.first? ts) = s)
    (hu : Sign.ofToken u (Sign.first? us) = s) : Matches t ts u us := by
  obtain ⟨hkind, htext, htied⟩ := Sign.mk.inj (ht.trans hu.symm)
  exact ⟨hkind, htext, by rw [htied, hkind]⟩

theorem ahead_of_alike (h : Alike ending tokens tokens') (hfront : Front tokens)
    (hfront' : Front tokens') : Ahead ending tokens tokens' := by
  -- both begin with a sign that they have in common, or with what they end in
  have hboth : ∀ {s : Sign} {more more' : List Sign}, Sign.ofTokens tokens = s :: more →
      Sign.ofTokens tokens' = s :: more' →
      (∀ ts us, Sign.ofTokens ts = more → Sign.ofTokens us = more' → Alike ending ts us) →
      Ahead ending tokens tokens' := by
    intro s more more' hs hs' hmore
    obtain ⟨t, ts, rfl, ht, hts⟩ := exists_cons_of_ofTokens hfront hs
    obtain ⟨u, us, rfl, hu, hus⟩ := exists_cons_of_ofTokens hfront' hs'
    exact .both (matches_of_ofToken ht hu) (hmore ts us hts hus)
  cases ending with
  | same =>
      change Sign.ofTokens tokens = Sign.ofTokens tokens' at h
      cases hsigns : Sign.ofTokens tokens with
      | nil =>
          rw [eq_nil_of_ofTokens hfront hsigns, eq_nil_of_ofTokens hfront' (h ▸ hsigns)]
          exact .none rfl
      | cons s more =>
          exact hboth hsigns (h ▸ hsigns) fun ts us hts hus => hts.trans hus.symm
  | newline =>
      obtain ⟨common, count, hcommon, hcommon'⟩ := h
      cases common with
      | cons s common =>
          exact hboth hcommon hcommon' fun ts us hts hus => ⟨common, count, hts, hus⟩
      | nil =>
          obtain ⟨u, us, rfl, hu, hus⟩ := exists_cons_of_ofTokens hfront' hcommon'
          refine .newline rfl (congrArg Sign.kind hu) ?_ ?_ (hcommon.trans hus.symm)
          · intro t ht
            cases tokens with
            | nil => cases ht
            | cons first more =>
                obtain rfl := Option.some.inj ht
                rw [Sign.ofTokens_cons (hfront _ rfl)] at hcommon
                have hmem : Sign.ofToken first (Sign.first? more) ∈
                    List.replicate count (Sign.mark .dedent) := by
                  rw [List.nil_append] at hcommon
                  exact hcommon ▸ List.mem_cons_self
                exact congrArg Sign.kind (List.eq_of_mem_replicate hmem)
          · intro kind hkind
            rw [← Sign.map_kind_ofTokens, hus, List.map_replicate] at hkind
            exact List.eq_of_mem_replicate hkind

theorem front_trivia (tokens : List Token) : Front (trivia tokens).rest := by
  intro t ht
  cases hrest : (trivia tokens).rest with
  | nil => rw [hrest] at ht; cases ht
  | cons first more =>
      rw [hrest] at ht
      obtain rfl := Option.some.inj ht
      exact isTrivia_of_rest hrest

@[simp] theorem signs_trivia (tokens : List Token) :
    Sign.ofTokens (trivia tokens).rest = Sign.ofTokens tokens := by
  unfold trivia
  induction tokens with
  | nil => rfl
  | cons t ts ih =>
      rw [skip]
      split
      · rename_i h
        rw [Sign.ofTokens_trivia h]
        exact ih
      · rfl

theorem alike_congr (h : Alike ending ts us) (hts : Sign.ofTokens tokens = Sign.ofTokens ts)
    (hus : Sign.ofTokens tokens' = Sign.ofTokens us) : Alike ending tokens tokens' := by
  cases ending with
  | same => exact hts.trans (Eq.trans h hus.symm)
  | newline =>
      obtain ⟨common, count, hcommon, hcommon'⟩ := h
      exact ⟨common, count, hts.trans hcommon, hus.trans hcommon'⟩

/-- Trivia is skipped on both sides. -/
theorem exists_ahead (h : Alike ending tokens tokens') :
    ∃ rest rest', (trivia tokens).rest = rest ∧ (trivia tokens').rest = rest' ∧ Front rest ∧
      Front rest' ∧ Alike ending rest rest' ∧ Ahead ending rest rest' :=
  have hspaced := alike_congr h (signs_trivia tokens) (signs_trivia tokens')
  ⟨_, _, rfl, rfl, front_trivia tokens, front_trivia tokens', hspaced,
    ahead_of_alike hspaced (front_trivia tokens) (front_trivia tokens')⟩

theorem signs_skip {passes : SyntaxKind → Bool}
    (htrivia : ∀ kind, kind.isTrivia = true → passes kind = true) (tokens : List Token) :
    Sign.ofTokens (skip passes tokens).rest =
      (Sign.ofTokens tokens).dropWhile fun s => passes s.kind := by
  induction tokens with
  | nil => rfl
  | cons t ts ih =>
      cases ht : t.kind.isTrivia with
      | true =>
          rw [skip, if_pos (htrivia _ ht), Sign.ofTokens_trivia ht]
          exact ih
      | false =>
          rw [skip, Sign.ofTokens_cons ht]
          split
          · rename_i hpasses
            exact ih.trans (List.dropWhile_cons_of_pos (a := Sign.ofToken t (Sign.first? ts))
              (p := fun s => passes s.kind) hpasses).symm
          · rename_i hpasses
            refine (Sign.ofTokens_cons ht ts).trans ?_
            exact (List.dropWhile_cons_of_neg (a := Sign.ofToken t (Sign.first? ts))
              (p := fun s => passes s.kind) hpasses).symm

/-- Blank lines are skipped on both sides, and with them the line end that only one side has. -/
theorem ahead_blank (h : Alike ending tokens tokens') :
    ∃ ending', (ending' = .newline → ending = .newline) ∧
      Alike ending' (blank tokens).rest (blank tokens').rest ∧
      ((blank tokens).rest = [] ∧ (blank tokens').rest = [] ∨
        ∃ t ts u us, (blank tokens).rest = t :: ts ∧ (blank tokens').rest = u :: us ∧
          Matches t ts u us ∧ Alike ending' ts us) := by
  have hskip : ∀ kind : SyntaxKind, kind.isTrivia = true → kind.isSkipped = true := by
    intro kind
    cases kind <;> decide
  obtain ⟨ending', hle, -, hrest⟩ :=
    h.dropWhile rfl (signs_skip hskip tokens) (signs_skip hskip tokens')
  have hfront : ∀ tokens, Front (blank tokens).rest := by
    intro tokens t ht
    obtain ⟨more, hmore⟩ := List.head?_eq_some_iff.mp ht
    exact isTrivia_of_rest_blank hmore
  have hahead := ahead_of_alike hrest (hfront tokens) (hfront tokens')
  refine ⟨ending', hle, hrest, ?_⟩
  change Ahead ending' (blank tokens).rest (blank tokens').rest at hahead
  generalize hts : (blank tokens).rest = left at hahead
  generalize hus : (blank tokens').rest = left' at hahead
  cases hahead with
  | both same behind => exact .inr ⟨_, _, _, _, rfl, rfl, same, behind⟩
  | none => exact .inl ⟨rfl, rfl⟩
  | newline _ hkind =>
      have hskipped := isSkipped_of_rest_blank hus
      rw [hkind] at hskipped
      cases hskipped

/-! ## Readings that agree -/

/-- The report on a key with nothing behind its colon. -/
def missingValue : String :=
  "expected a value or a nested block"

/-- Both sides report something, or neither; or, where there is an excuse for it, only the first
one, and only that a value is missing. -/
def Excused (excuse : Prop) (errors errors' : List SyntaxError) : Prop :=
  (errors = [] ↔ errors' = []) ∨
    (excuse ∧ errors' = [] ∧ errors.map SyntaxError.message = [missingValue])

/-- Both sides read the same and report the same, and what they leave is alike. -/
structure InStep (ending : Ending) (r : Reading tokens) (r' : Reading tokens') : Prop where
  core : Tree.allCore r.trees = Tree.allCore r'.trees
  errors : r.errors.map SyntaxError.message = r'.errors.map SyntaxError.message
  rest : Alike ending r.rest r'.rest

/-- Both sides read the same.  As long as the ending is not reached, they are in step. -/
inductive Agrees (excuse : Prop) (ending : Ending) (r : Reading tokens) (r' : Reading tokens') :
    Prop
  | inStep (inStep : InStep ending r r')
  /-- The line end that only one side has is read. -/
  | behind (only : ending = .newline)
      (core : Tree.allCore r.trees = Tree.allCore r'.trees)
      (excused : Excused excuse r.errors r'.errors) (rest : Alike .same r.rest r'.rest)
  /-- One side has overrun the end of a block, and both have reported something. -/
  | lost (only : ending = .newline) (core : Tree.allCore r.trees = Tree.allCore r'.trees)
      (reported : r.errors ≠ []) (reported' : r'.errors ≠ []) (rest : Closing r.rest)
      (rest' : Closing r'.rest)

/-- Nothing is reported of what is read, and nothing of it has a core. -/
structure Plain (r : Reading tokens) : Prop where
  core : Tree.allCore r.trees = []
  errors : r.errors = []

/-- Of what closes the blocks at the end of a text nothing has a core, and nothing else is
left. -/
structure Quiet (r : Reading tokens) : Prop where
  core : Tree.allCore r.trees = []
  rest : Closing r.rest

section Combinators

variable {left left' : List Token} {r : Reading tokens} {r' : Reading tokens'}
  {s : Reading ts} {s' : Reading us}

theorem Excused.of_map_eq {errors errors' : List SyntaxError}
    (h : errors.map SyntaxError.message = errors'.map SyntaxError.message) :
    Excused excuse errors errors' :=
  .inl (by rw [← List.map_eq_nil_iff (f := SyntaxError.message), h, List.map_eq_nil_iff])

theorem Excused.reported {errors errors' : List SyntaxError} (h : errors ≠ [])
    (h' : errors' ≠ []) : Excused excuse errors errors' :=
  .inl ⟨fun heq => absurd heq h, fun heq => absurd heq h'⟩

/-- The same reports in front change nothing. -/
theorem Excused.append_left {errors errors' before before' : List SyntaxError}
    (hbefore : before.map SyntaxError.message = before'.map SyntaxError.message)
    (h : Excused excuse errors errors') :
    Excused excuse (before ++ errors) (before' ++ errors') := by
  cases before with
  | nil =>
      obtain rfl := List.map_eq_nil_iff.mp hbefore.symm
      exact h
  | cons e before =>
      cases before' with
      | nil => cases hbefore
      | cons e' before' => exact .reported (List.cons_ne_nil _ _) (List.cons_ne_nil _ _)

theorem Excused.append_right {errors errors' behind behind' : List SyntaxError}
    (h : Excused excuse errors errors')
    (hbehind : behind.map SyntaxError.message = behind'.map SyntaxError.message) :
    Excused excuse (errors ++ behind) (errors' ++ behind') := by
  cases behind with
  | nil =>
      obtain rfl := List.map_eq_nil_iff.mp hbehind.symm
      rwa [List.append_nil, List.append_nil]
  | cons e behind =>
      cases behind' with
      | nil => cases hbehind
      | cons e' behind' =>
          exact .reported (List.append_ne_nil_of_right_ne_nil _ (List.cons_ne_nil _ _))
            (List.append_ne_nil_of_right_ne_nil _ (List.cons_ne_nil _ _))

theorem Agrees.core_eq (h : Agrees excuse ending r r') :
    Tree.allCore r.trees = Tree.allCore r'.trees := by
  cases h with
  | inStep h => exact h.core
  | behind _ core => exact core
  | lost _ core => exact core

theorem Agrees.excused (h : Agrees excuse ending r r') : Excused excuse r.errors r'.errors := by
  cases h with
  | inStep h => exact .of_map_eq h.errors
  | behind _ _ excused => exact excused
  | lost _ _ reported reported' => exact .reported reported reported'

/-- Readings that agree on lists with the same ending agree on others. -/
theorem Agrees.weaken {ending' : Ending} (h : Agrees excuse ending' r r')
    (hle : ending' = .newline → ending = .newline) : Agrees excuse ending r r' := by
  cases h with
  | inStep h =>
      by_cases heq : ending' = ending
      · exact .inStep (heq ▸ h)
      · have hsame : ending' = .same ∧ ending = .newline := by
          revert hle heq
          cases ending' <;> cases ending <;> simp
        obtain ⟨rfl, rfl⟩ := hsame
        exact .behind rfl h.core (.of_map_eq h.errors) h.rest
  | behind only core excused rest => exact .behind (hle only) core excused rest
  | lost only core reported reported' rest rest' =>
      exact .lost (hle only) core reported reported' rest rest'

/-- Other trees of the same cores, with the same reports. -/
theorem Agrees.withTrees (h : Agrees excuse ending r r')
    (hcore : Tree.allCore s.trees = Tree.allCore s'.trees) (herrors : s.errors = r.errors)
    (herrors' : s'.errors = r'.errors) (hrest : s.rest = r.rest) (hrest' : s'.rest = r'.rest) :
    Agrees excuse ending s s' := by
  cases h with
  | inStep h => exact .inStep ⟨hcore, by rw [herrors, herrors', h.errors],
      by rw [hrest, hrest']; exact h.rest⟩
  | behind only _ excused rest =>
      exact .behind only hcore (by rwa [herrors, herrors']) (by rwa [hrest, hrest'])
  | lost only _ reported reported' rest rest' =>
      exact .lost only hcore (by rwa [herrors]) (by rwa [herrors']) (by rwa [hrest])
        (by rwa [hrest'])

theorem Agrees.withLeaf (h : Agrees excuse ending r r')
    (ht : (Tree.leaf t).core = (Tree.leaf u).core) :
    Agrees excuse ending (r.withLeaf t) (r'.withLeaf u) :=
  h.withTrees (congrArg₂ (· ++ ·) ht h.core_eq) rfl rfl rfl rfl

theorem Agrees.afterFirst (h : Agrees excuse ending r r') (t u : Token) :
    Agrees excuse ending (r.behind t) (r'.behind u) :=
  h.withTrees h.core_eq rfl rfl rfl rfl

theorem Agrees.wrap (h : Agrees excuse ending r r') (kind : SyntaxKind) :
    Agrees excuse ending (r.wrap kind) (r'.wrap kind) :=
  h.withTrees (congrArg (· ++ []) (Tree.core_node_congr kind h.core_eq)) rfl rfl rfl rfl

theorem Agrees.wrapFrom (h : Agrees excuse ending r r') (kind : SyntaxKind)
    (ht : (Tree.leaf t).core = (Tree.leaf u).core) :
    Agrees excuse ending (r.wrapFrom kind t) (r'.wrapFrom kind u) :=
  h.withTrees (congrArg (· ++ []) (Tree.core_node_congr kind
    (congrArg₂ (· ++ ·) ht h.core_eq))) rfl rfl rfl rfl

theorem Agrees.report (h : Agrees excuse ending r r') (message : String)
    (range range' : TextRange) :
    Agrees excuse ending (r.report message range) (r'.report message range') := by
  cases h with
  | inStep h =>
      exact .inStep ⟨h.core, by rw [Reading.errors_report, Reading.errors_report, List.map_cons,
        List.map_cons, h.errors], h.rest⟩
  | behind only core _ rest =>
      exact .behind only core (.reported (List.cons_ne_nil _ _) (List.cons_ne_nil _ _)) rest
  | lost only core _ _ rest rest' =>
      exact .lost only core (List.cons_ne_nil _ _) (List.cons_ne_nil _ _) rest rest'

theorem Plain.agrees (hr : Plain r) (hr' : Plain r') (hrest : Alike ending r.rest r'.rest) :
    Agrees excuse ending r r' :=
  .inStep ⟨hr.core.trans hr'.core.symm, by rw [hr.errors, hr'.errors], hrest⟩

/-- Behind what says nothing. -/
theorem Agrees.followedBy (hr : Plain r) (hr' : Plain r') (hleft : r.rest = left)
    (hleft' : r'.rest = left') {b : Reading left} {b' : Reading left'}
    (h : Agrees excuse ending b b') :
    Agrees excuse ending (r.followedBy hleft b) (r'.followedBy hleft' b') :=
  h.withTrees (by simp only [Reading.followedBy, Tree.allCore_append, hr.core, hr'.core, h.core_eq])
    (by rw [Reading.errors_followedBy, hr.errors, List.nil_append])
    (by rw [Reading.errors_followedBy, hr'.errors, List.nil_append]) rfl rfl

/-- What is read behind need only agree where the first readings leave lists that are alike. -/
theorem Agrees.append (h : Agrees excuse ending r r') {b : Reading r.rest} {b' : Reading r'.rest}
    (hbehind : ∀ ending', (ending' = .newline → ending = .newline) →
      Alike ending' r.rest r'.rest → Agrees excuse ending' b b')
    (hquiet : Closing r.rest → Quiet b) (hquiet' : Closing r'.rest → Quiet b') :
    Agrees excuse ending (r.append b) (r'.append b') := by
  have hcore : ∀ {trees trees' : List Tree}, Tree.allCore r.trees = Tree.allCore r'.trees →
      Tree.allCore trees = Tree.allCore trees' →
      Tree.allCore (r.trees ++ trees) = Tree.allCore (r'.trees ++ trees') := by
    intro trees trees' hr htrees
    rw [Tree.allCore_append, Tree.allCore_append, hr, htrees]
  cases h with
  | inStep h =>
      cases hbehind ending id h.rest with
      | inStep hb =>
          refine .inStep ⟨hcore h.core hb.core, ?_, hb.rest⟩
          rw [Reading.errors_append, Reading.errors_append, List.map_append, List.map_append,
            h.errors, hb.errors]
      | behind only core excused rest =>
          exact .behind only (hcore h.core core) (excused.append_left h.errors) rest
      | lost only core reported reported' rest rest' =>
          exact .lost only (hcore h.core core)
            (List.append_ne_nil_of_right_ne_nil _ reported)
            (List.append_ne_nil_of_right_ne_nil _ reported') rest rest'
  | behind only core excused rest =>
      cases hbehind .same (fun heq => by cases heq) rest with
      | inStep hb =>
          exact .behind only (hcore core hb.core) (excused.append_right hb.errors) hb.rest
      | behind only' => cases only'
      | lost only' => cases only'
  | lost only core reported reported' rest rest' =>
      have hb := hquiet rest
      have hb' := hquiet' rest'
      exact .lost only (hcore core (hb.core.trans hb'.core.symm))
        (List.append_ne_nil_of_left_ne_nil reported _)
        (List.append_ne_nil_of_left_ne_nil reported' _) hb.rest hb'.rest

end Combinators

/-! ## Rules without blocks -/

theorem Matches.core (h : Matches t ts u us) : (Tree.leaf t).core = (Tree.leaf u).core := by
  obtain ⟨hkind, htext, -⟩ := h
  unfold Tree.core
  rw [Sign.textOf, Sign.textOf, ← hkind] at htext
  rw [← hkind]
  split
  · rename_i hliteral
    rw [if_pos hliteral, if_pos hliteral] at htext
    rw [htext]
  · rfl

theorem plain_nothing (tokens : List Token) : Plain (Reading.nothing tokens) :=
  ⟨rfl, rfl⟩

theorem Plain.withLeaf {r : Reading tokens} (h : Plain r) (ht : t.kind.isLiteral = false) :
    Plain (r.withLeaf t) :=
  ⟨by rw [Reading.withLeaf, Tree.allCore_cons, Tree.core_leaf ht, h.core]; rfl, h.errors⟩

theorem Plain.followedBy {left : List Token} {r : Reading tokens} (hr : Plain r)
    (hleft : r.rest = left) {b : Reading left} (hb : Plain b) : Plain (r.followedBy hleft b) :=
  ⟨by rw [Reading.followedBy, Tree.allCore_append, hr.core, hb.core]; rfl,
    by rw [Reading.errors_followedBy, hr.errors, hb.errors]; rfl⟩

theorem plain_skip {passes : SyntaxKind → Bool}
    (hpasses : ∀ kind, passes kind = true → kind.isLiteral = false) (tokens : List Token) :
    Plain (skip passes tokens) :=
  skip_induction (P := fun _ r => Plain r) plain_nothing
    (fun _ _ _ ht hr => hr.withLeaf (hpasses _ ht)) tokens

theorem plain_trivia (tokens : List Token) : Plain (trivia tokens) :=
  plain_skip (fun kind h => by revert h; cases kind <;> decide) tokens

theorem plain_blank (tokens : List Token) : Plain (blank tokens) :=
  plain_skip (fun kind h => by revert h; cases kind <;> decide) tokens

theorem plain_lineEnd (tokens : List Token) : Plain (lineEnd tokens) := by
  cases tokens with
  | nil => exact plain_nothing []
  | cons t ts =>
      rw [lineEnd]
      split
      · rename_i ht
        exact (plain_nothing ts).withLeaf (by rw [ht]; rfl)
      · exact plain_nothing _

theorem rest_lineEnd (ht : t.kind = .newline) : (lineEnd (t :: ts)).rest = ts := by
  rw [lineEnd, if_pos ht]
  rfl

theorem rest_lineEnd_other (h : Sign.first? tokens ≠ some .newline) :
    (lineEnd tokens).rest = tokens := by
  cases tokens with
  | nil => rfl
  | cons t ts =>
      rw [lineEnd, if_neg fun ht => h (congrArg some ht)]
      rfl

theorem first?_ne_newline (h : ∀ kind ∈ kinds tokens, kind = .dedent) :
    Sign.first? tokens ≠ some .newline := by
  intro hnewline
  cases tokens with
  | nil => cases hnewline
  | cons t ts =>
      have ht : t.kind = .newline := Option.some.inj hnewline
      have hmem : t.kind ∈ kinds (t :: ts) := by
        rw [kinds_cons (by rw [ht]; rfl)]
        exact List.mem_cons_self
      cases ht.symm.trans (h _ hmem)

/-- A line end that both sides have is read on both. -/
theorem alike_lineEnd (h : Alike ending ts us)
    (hnewline : Sign.first? ts = some .newline ↔ Sign.first? us = some .newline) :
    Alike ending (lineEnd ts).rest (lineEnd us).rest := by
  by_cases hts : Sign.first? ts = some .newline
  · have hfront : ∀ {tokens : List Token}, Sign.first? tokens = some .newline →
        Front tokens := by
      intro tokens hfirst t ht
      rw [Sign.first?, Option.mem_def.mp ht] at hfirst
      rw [show t.kind = .newline from Option.some.inj hfirst]
      rfl
    cases ahead_of_alike h (hfront hts) (hfront (hnewline.mp hts)) with
    | both same behind =>
        have ht := Option.some.inj hts
        rw [rest_lineEnd ht, rest_lineEnd (same.kind.symm.trans ht)]
        exact behind
    | none => cases hts
    | newline _ _ first =>
        cases ts with
        | nil => cases hts
        | cons t ts => cases (first t rfl).symm.trans (Option.some.inj hts)
  · rw [rest_lineEnd_other hts, rest_lineEnd_other fun hus => hts (hnewline.mpr hus)]
    exact h

/-- Where no trivia stands in front, the lists are still alike behind a line end. -/
theorem exists_alike_lineEnd (h : Alike ending ts us) (hts : Front ts) (hus : Front us) :
    ∃ ending', (ending' = .newline → ending = .newline) ∧
      Alike ending' (lineEnd ts).rest (lineEnd us).rest := by
  cases ahead_of_alike h hts hus with
  | both same behind =>
      refine ⟨ending, id, alike_lineEnd h ?_⟩
      rw [Sign.first?, Sign.first?, List.head?_cons, List.head?_cons, Option.map_some,
        Option.map_some, same.kind]
  | none => exact ⟨ending, id, h⟩
  | newline only kind first _ behind =>
      refine ⟨.same, by simp, ?_⟩
      rw [rest_lineEnd kind, rest_lineEnd_other]
      · exact behind
      · intro hnewline
        cases ts with
        | nil => cases hnewline
        | cons t ts => cases (first t rfl).symm.trans (Option.some.inj hnewline)

theorem front_skip (tokens : List Token) :
    Front (skip (fun kind => !kind.isLayout) tokens).rest := by
  intro t ht
  obtain ⟨ts, hrest⟩ := List.head?_eq_some_iff.mp ht
  have hpasses := passes_of_rest_skip hrest
  revert hpasses
  cases t.kind <;> decide

/-- What is set aside has no core. -/
theorem core_recoverLine (stop : Nat) (message : String) (tokens : List Token) :
    Tree.allCore (recoverLine stop message tokens).trees = [] := by
  have hnode : Tree.allCore (recover stop message tokens).trees = [] := by
    cases tokens with
    | nil => rfl
    | cons t ts =>
        rw [recover]
        split
        · rfl
        · split <;> rfl
  rw [recoverLine, Reading.append, Tree.allCore_append, hnode, (plain_lineEnd _).core]
  rfl

theorem errors_recoverLine (stop : Nat) (message : String) (tokens : List Token) :
    (recoverLine stop message tokens).errors.map SyntaxError.message = [message] := by
  have herrors : (recover stop message tokens).errors.map SyntaxError.message = [message] := by
    cases tokens with
    | nil => rfl
    | cons t ts =>
        rw [recover]
        split
        · rfl
        · split
          · rfl
          · simp [errorFrom]
  rw [recoverLine, Reading.errors_append, (plain_lineEnd _).errors, List.append_nil, herrors]

theorem rest_recover_dedent (message : String) (ht : t.kind = .dedent) :
    (recover stop message (t :: ts)).rest = t :: ts := by
  rw [recover]
  rw [if_pos ht]
  rfl

theorem rest_recover_layout (message : String) (ht : t.kind ≠ .dedent)
    (hlayout : t.kind.isLayout = true) : (recover stop message (t :: ts)).rest = ts := by
  rw [recover]
  rw [if_neg ht, if_pos hlayout]
  rfl

theorem rest_recover_other (message : String) (hlayout : t.kind.isLayout = false) :
    (recover stop message (t :: ts)).rest = (skip (fun kind => !kind.isLayout) ts).rest := by
  have ht : t.kind ≠ .dedent := fun ht => by rw [ht] at hlayout; cases hlayout
  rw [recover]
  rw [if_neg ht, if_neg (by rw [hlayout]; decide)]
  rfl

theorem alike_recoverLine (stop stop' : Nat) (message : String) (h : Alike ending ts us)
    (hts : Front ts) (hus : Front us) : ∃ ending', (ending' = .newline → ending = .newline) ∧
      Alike ending' (recoverLine stop message ts).rest
        (recoverLine stop' message us).rest := by
  rw [recoverLine, recoverLine, Reading.rest_append, Reading.rest_append]
  cases ahead_of_alike h hts hus with
  | @both t u ts us same behind =>
      by_cases hdedent : t.kind = .dedent
      · rw [rest_recover_dedent message hdedent,
          rest_recover_dedent message (same.kind.symm.trans hdedent)]
        exact exists_alike_lineEnd h hts hus
      · have hdedent' : u.kind ≠ .dedent := same.kind ▸ hdedent
        cases hlayout : t.kind.isLayout with
        | true =>
            have hlayout' : u.kind.isLayout = true := same.kind ▸ hlayout
            rw [rest_recover_layout message hdedent hlayout,
              rest_recover_layout message hdedent' hlayout']
            -- the tie tells whether a line end follows
            refine ⟨ending, id, alike_lineEnd behind ?_⟩
            have htied := same.tied
            revert htied hlayout hdedent
            cases t.kind <;> simp [SyntaxKind.isLayout, Sign.ties, Sign.partner?, eq_comm]
        | false =>
            have hlayout' : u.kind.isLayout = false := same.kind ▸ hlayout
            have hskip : ∀ kind : SyntaxKind, kind.isTrivia = true → (!kind.isLayout) = true := by
              intro kind
              cases kind <;> decide
            rw [rest_recover_other message hlayout, rest_recover_other message hlayout']
            obtain ⟨ending', -, hsame, hrest⟩ :=
              behind.dropWhile rfl (signs_skip hskip ts) (signs_skip hskip us)
            obtain rfl := hsame rfl
            exact exists_alike_lineEnd hrest (front_skip ts) (front_skip us)
  | none => exact ⟨ending, id, h⟩
  | @newline ts us u only kind first ends behind =>
      have hdedent' : u.kind ≠ .dedent := by rw [kind]; decide
      have hus' : (lineEnd us).rest = us := rest_lineEnd_other (first?_ne_newline ends)
      have hts' : (lineEnd (recover stop message ts).rest).rest = ts := by
        cases ts with
        | nil => rfl
        | cons t ts =>
            have ht : t.kind = .dedent := first t rfl
            rw [rest_recover_dedent message ht, rest_lineEnd_other]
            exact fun hnewline => by cases ht.symm.trans (Option.some.inj hnewline)
      rw [rest_recover_layout message hdedent' (by rw [kind]; rfl), hus', hts']
      exact ⟨.same, by simp, behind⟩

/-- The rest of a line is set aside on both sides. -/
theorem agrees_recoverLine (message : String) (h : Alike ending ts us) (hts : Front ts)
    (hus : Front us) :
    Agrees excuse ending (recoverLine stop message ts) (recoverLine stop' message us) := by
  obtain ⟨ending', hle, hrest⟩ := alike_recoverLine stop stop' message h hts hus
  refine Agrees.weaken (.inStep ⟨?_, ?_, hrest⟩) hle
  · rw [core_recoverLine, core_recoverLine]
  · rw [errors_recoverLine, errors_recoverLine]

/-- What stands up to the next mark of layout is set aside on both sides. -/
theorem agrees_errorFrom (h : Alike ending ts us) :
    Agrees excuse ending (errorFrom t ts) (errorFrom u us) := by
  have hskip : ∀ kind : SyntaxKind, kind.isTrivia = true → (!kind.isLayout) = true := by
    intro kind
    cases kind <;> decide
  obtain ⟨ending', -, hsame, hrest⟩ :=
    h.dropWhile rfl (signs_skip hskip ts) (signs_skip hskip us)
  obtain rfl := hsame rfl
  exact .inStep ⟨rfl, by rw [errorFrom, errorFrom, Reading.errors_wrapFrom,
    Reading.errors_wrapFrom, errors_skip, errors_skip], hrest⟩

end Grammar
end ModelWorkspace
