import ModelWorkspace.Proofs.Tree.Agreement
import ModelWorkspace.Proofs.Tree.FinalKey

/-!
# The grammar on what is alike

Each rule of the grammar reads lists of tokens that are alike in the same way, up to a line end
that only one of them has.  The rules for values go first.  Those for properties, items and
members call each other, so they are taken together (`AgreeAt`), by induction on the tokens;
where the second list is the one that has a line end more, it keeps to its place, and no block
of it ends within a line.

The first list may be reported alone for one reason, that it ends in a key.  The rules are
given that as the excuse they may need, and hand it on to whatever reads what they leave.
-/

namespace ModelWorkspace
namespace Grammar

open Nesting

variable {ending : Ending} {stop stop' depth : Nat} {tokens tokens' ts us : List Token}
  {t u : Token} {excuse : Prop}

/-! ## Names and scalars -/

theorem ties_eq_iff {kind partner : SyntaxKind} (h : Sign.partner? kind = some partner)
    {next next' : Option SyntaxKind} (htied : Sign.ties kind next = Sign.ties kind next') :
    next = some partner ↔ next' = some partner := by
  simp only [Sign.ties, h, Option.isSome_some, Bool.true_and, Bool.beq_eq_decide_eq] at htied
  rw [eq_comm, eq_comm (a := next')]
  simpa using htied

theorem front_of_first? {kind : SyntaxKind} (h : Sign.first? tokens = some kind)
    (hkind : kind.isTrivia = false) : Front tokens := by
  intro t ht
  rw [Sign.first?, Option.mem_def.mp ht] at h
  rwa [show t.kind = kind from Option.some.inj h]

/-- Both lists begin with a token of the same kind, which is no layout. -/
theorem exists_both {kind : SyntaxKind} (h : Alike ending ts us)
    (hts : Sign.first? ts = some kind) (hus : Sign.first? us = some kind)
    (hkind : kind.isTrivia = false) (hdedent : kind ≠ .dedent) :
    ∃ t more u more', ts = t :: more ∧ us = u :: more' ∧ t.kind = kind ∧ u.kind = kind ∧
      Matches t more u more' ∧ Alike ending more more' := by
  cases ahead_of_alike h (front_of_first? hts hkind) (front_of_first? hus hkind) with
  | both same behind =>
      exact ⟨_, _, _, _, rfl, rfl, Option.some.inj hts, Option.some.inj hus, same, behind⟩
  | none => cases hts
  | newline _ _ first =>
      cases ts with
      | nil => cases hts
      | cons t ts => exact absurd ((Option.some.inj hts).symm.trans (first t rfl)) hdedent

theorem nameTail_other (h : Sign.first? tokens ≠ some .dot) :
    nameTail stop tokens = .nothing tokens := by
  cases tokens with
  | nil => rfl
  | cons t ts =>
      have ht : t.kind ≠ .dot := fun hkind => h (congrArg some hkind)
      cases ts with
      | nil => rw [nameTail, if_neg ht]
      | cons u ts => rw [nameTail, if_neg ht]

/-- A dot that no name follows. -/
theorem inStep_nameTail_dot (ht : t.kind = .dot) (hu : u.kind = .dot)
    (hts : Sign.first? ts ≠ some .ident) (hus : Sign.first? us ≠ some .ident)
    (h : Alike ending ts us) :
    InStep ending (nameTail stop (t :: ts)) (nameTail stop' (u :: us)) := by
  have hdot : ∀ (stop : Nat) {t : Token} {ts : List Token}, t.kind = .dot →
      Sign.first? ts ≠ some .ident →
      (nameTail stop (t :: ts)).trees = [.leaf t] ∧
        (nameTail stop (t :: ts)).errors.map SyntaxError.message =
          ["expected identifier after '.'"] ∧
        (nameTail stop (t :: ts)).rest = ts := by
    intro stop t ts ht hts
    cases ts with
    | nil =>
        rw [nameTail, if_pos ht]
        exact ⟨rfl, rfl, rfl⟩
    | cons first more =>
        have hfirst : first.kind ≠ .ident := fun h => hts (congrArg some h)
        rw [nameTail, if_pos ht, if_neg hfirst]
        exact ⟨rfl, rfl, rfl⟩
  obtain ⟨htrees, herrors, hrest⟩ := hdot stop ht hts
  obtain ⟨htrees', herrors', hrest'⟩ := hdot stop' hu hus
  refine ⟨?_, herrors.trans herrors'.symm, by rwa [hrest, hrest']⟩
  rw [htrees, htrees', Tree.allCore_cons, Tree.allCore_cons, Tree.core_leaf (by rw [ht]; rfl),
    Tree.core_leaf (by rw [hu]; rfl)]

theorem inStep_nameTail (stop stop' : Nat) (h : Alike ending tokens tokens')
    (hdot : Sign.first? tokens = some .dot ↔ Sign.first? tokens' = some .dot) :
    InStep ending (nameTail stop tokens) (nameTail stop' tokens') := by
  induction tokens using rules_induction generalizing tokens' with
  | step tokens ih =>
      by_cases hts : Sign.first? tokens = some .dot
      · obtain ⟨dot, more, dot', more', rfl, rfl, hkind, hkind', same, behind⟩ :=
          exists_both h hts (hdot.mp hts) rfl (by decide)
        have htied := same.tied
        rw [hkind] at htied
        have hiff := ties_eq_iff rfl htied
        by_cases hident : Sign.first? more = some .ident
        · obtain ⟨t, ts, u, us, rfl, rfl, ht, hu, same', behind'⟩ :=
            exists_both behind hident (hiff.mp hident) rfl (by decide)
          have htied' := same'.tied
          rw [ht] at htied'
          have hbehind := ih ts (by simp only [List.length_cons]; omega) behind'
            (ties_eq_iff rfl htied')
          rw [nameTail, if_pos hkind, if_pos ht, nameTail, if_pos hkind', if_pos hu]
          refine ⟨?_, hbehind.errors, hbehind.rest⟩
          simp only [Reading.withLeaf, Tree.allCore_cons, same'.core, hbehind.core,
            Tree.core_leaf (t := dot) (by rw [hkind]; rfl),
            Tree.core_leaf (t := dot') (by rw [hkind']; rfl)]
        · exact inStep_nameTail_dot hkind hkind' hident (fun h => hident (hiff.mpr h)) behind
      · rw [nameTail_other hts, nameTail_other fun hus => hts (hdot.mpr hus)]
        exact ⟨rfl, rfl, h⟩

theorem inStep_scalar (same : Matches t ts u us) (behind : Alike ending ts us) :
    InStep ending (scalar stop t ts) (scalar stop' u us) := by
  unfold scalar
  by_cases ht : t.kind = .ident
  · rw [if_pos ht, if_pos (same.kind ▸ ht)]
    have htied := same.tied
    rw [ht] at htied
    have hname := inStep_nameTail stop stop' behind (ties_eq_iff rfl htied)
    refine ⟨?_, hname.errors, hname.rest⟩
    exact congrArg (· ++ []) (Tree.core_node_congr .scalar (congrArg (· ++ [])
      (Tree.core_node_congr .qualifiedName (congrArg₂ (· ++ ·) same.core hname.core))))
  · rw [if_neg ht, if_neg (same.kind ▸ ht)]
    refine ⟨?_, rfl, behind⟩
    exact congrArg (· ++ []) (Tree.core_node_congr .scalar (congrArg (· ++ []) same.core))

/-! ## Lists -/

theorem inStep_listElement (stop stop' : Nat) (same : Matches t ts u us)
    (behind : Alike ending ts us) :
    InStep ending (listElement stop t ts) (listElement stop' u us) := by
  unfold listElement
  rw [← same.kind]
  split
  · exact inStep_scalar same behind
  · exact ⟨rfl, rfl, behind⟩

theorem rest_spacedElement (stop : Nat) (t : Token) (ts : List Token) :
    (spacedElement stop t ts).rest = (trivia (listElement stop t ts).rest).rest :=
  rfl

theorem inStep_spacedElement (stop stop' : Nat) (same : Matches t ts u us)
    (behind : Alike ending ts us) :
    InStep ending (spacedElement stop t ts) (spacedElement stop' u us) := by
  have helement := inStep_listElement stop stop' same behind
  refine ⟨?_, ?_, ?_⟩
  · simp only [spacedElement, Reading.append, Tree.allCore_append, helement.core,
      (plain_trivia _).core]
  · simp only [spacedElement, Reading.errors_append, (plain_trivia _).errors, List.append_nil,
      helement.errors]
  · rw [rest_spacedElement, rest_spacedElement]
    exact alike_congr helement.rest (signs_trivia _) (signs_trivia _)

/-- Whether a list is overrun: nothing but the ends of blocks is left, on both sides. -/
structure Overrun (ending : Ending) (r : Reading tokens) (r' : Reading tokens') : Prop where
  only : ending = .newline
  core : Tree.allCore r.trees = Tree.allCore r'.trees
  rest : Closing r.rest
  rest' : Closing r'.rest

theorem front_spacedElement (stop : Nat) (t : Token) (ts : List Token) :
    Front (spacedElement stop t ts).rest := by
  rw [rest_spacedElement]
  exact front_trivia _

theorem front_listElements (stop : Nat) (h : Front tokens) :
    Front (listElements stop tokens).rest := by
  fun_induction listElements stop tokens with
  | case1 | case2 => exact h
  | case3 t ts _ element spaced hrest => exact front_spacedElement stop t ts
  | case4 t ts _ element spaced comma more hrest hkind space hlt ih =>
      exact ih (front_trivia more)
  | case5 t ts _ element spaced comma more hrest hkind => exact front_spacedElement stop t ts

theorem kinds_of_alike_same (h : Alike .same ts us) : kinds ts = kinds us := by
  rw [← Sign.map_kind_ofTokens, ← Sign.map_kind_ofTokens]
  exact congrArg _ h

/-- The end of a block, and nothing but other ones behind it, is taken for an element. -/
theorem overrun_listElements (only : ending = .newline)
    (ht : ∀ kind ∈ kinds (t :: ts), kind = .dedent) (hdedent : t.kind = .dedent)
    (hu : u.kind = .newline) (hus : ∀ kind ∈ kinds us, kind = .dedent) :
    Overrun ending (listElements stop (t :: ts)) (listElements stop' (u :: us)) := by
  have hstop : ¬(t.kind = .rightBracket ∨ t.kind = .newline) := by rw [hdedent]; decide
  have helement : listElement stop t ts =
      ((Reading.nothing ts).wrapFrom .error t).report "expected a value in list" t.range := by
    rw [listElement, hdedent]
    rfl
  have hrest : kinds (spacedElement stop t ts).rest = kinds ts := by
    rw [rest_spacedElement, helement, ← Symbol.map_kind_ofTokens, ofTokens_trivia_rest,
      Symbol.map_kind_ofTokens]
    rfl
  have hts : ∀ kind ∈ kinds (spacedElement stop t ts).rest, kind = .dedent := by
    intro kind hkind
    refine ht kind ?_
    rw [kinds_cons (by rw [hdedent]; rfl)]
    exact List.mem_cons_of_mem _ (hrest ▸ hkind)
  have hlast : ∀ comma ∈ (spacedElement stop t ts).rest.head?, comma.kind ≠ .comma := by
    intro comma hmem hcomma
    cases hcons : (spacedElement stop t ts).rest with
    | nil => rw [hcons] at hmem; cases hmem
    | cons first more =>
        rw [hcons] at hmem hts
        obtain rfl := Option.some.inj hmem
        rw [kinds_cons (by rw [hcomma]; rfl)] at hts
        cases hcomma.symm.trans (hts _ List.mem_cons_self)
  rw [listElements_last hstop hlast, listElements_stop (.inr hu)]
  refine ⟨only, ?_, fun kind hkind => .inr (hts kind hkind), fun kind hkind => ?_⟩
  · rw [Reading.behind, spacedElement, Reading.append, Tree.allCore_append,
      (plain_trivia _).core, helement]
    rfl
  · change kind ∈ kinds (u :: us) at hkind
    rw [kinds_cons (by rw [hu]; rfl)] at hkind
    rcases List.mem_cons.mp hkind with rfl | hkind
    · exact .inl hu
    · exact .inr (hus kind hkind)

/-- Behind an element and a comma the list goes on as what stands behind the comma does. -/
theorem inStep_elementComma {comma comma' : Token} {more more' : List Token}
    (hstop : ¬(t.kind = .rightBracket ∨ t.kind = .newline)) (hkind : t.kind = u.kind)
    (helement : InStep ending (spacedElement stop t ts) (spacedElement stop' u us))
    (hrest : (spacedElement stop t ts).rest = comma :: more)
    (hrest' : (spacedElement stop' u us).rest = comma' :: more')
    (hcomma : comma.kind = .comma) (same : Matches comma more comma' more')
    (hothers : InStep ending (listElements stop (trivia more).rest)
        (listElements stop' (trivia more').rest) ∨
      Overrun ending (listElements stop (trivia more).rest)
        (listElements stop' (trivia more').rest)) :
    InStep ending (listElements stop (t :: ts)) (listElements stop' (u :: us)) ∨
      Overrun ending (listElements stop (t :: ts)) (listElements stop' (u :: us)) := by
  have hcore : Tree.allCore (listElements stop (trivia more).rest).trees =
      Tree.allCore (listElements stop' (trivia more').rest).trees := by
    rcases hothers with hothers | hothers
    · exact hothers.core
    · exact hothers.core
  have htrees : Tree.allCore ((spacedElement stop t ts).trees ++ .leaf comma ::
      ((trivia more).trees ++ (listElements stop (trivia more).rest).trees)) =
      Tree.allCore ((spacedElement stop' u us).trees ++ .leaf comma' ::
      ((trivia more').trees ++ (listElements stop' (trivia more').rest).trees)) := by
    simp only [Tree.allCore_append, Tree.allCore_cons, helement.core, same.core,
      (plain_trivia _).core, hcore]
  rw [listElements_comma hstop hrest hcomma,
    listElements_comma (hkind ▸ hstop) hrest' (same.kind ▸ hcomma)]
  rcases hothers with hothers | hothers
  · refine .inl ⟨htrees, ?_, hothers.rest⟩
    simp only [Reading.errors_behind, Reading.errors_followedBy, Reading.errors_withLeaf,
      Reading.errors_append, List.map_append, helement.errors, hothers.errors,
      (plain_trivia _).errors]
  · exact .inr ⟨hothers.only, htrees, hothers.rest, hothers.rest'⟩

/-- Elements are read in step, until the ending is reached: then the first side may take the
end of a block for an element. -/
theorem inStep_listElements (stop stop' : Nat) (h : Alike ending tokens tokens')
    (hfront : Front tokens) (hfront' : Front tokens') :
    InStep ending (listElements stop tokens) (listElements stop' tokens') ∨
      Overrun ending (listElements stop tokens) (listElements stop' tokens') := by
  induction tokens using rules_induction generalizing tokens' with
  | step tokens ih =>
      cases ahead_of_alike h hfront hfront' with
      | none =>
          rw [listElements_nil, listElements_nil]
          exact .inl ⟨rfl, rfl, h⟩
      | @newline _ us u only kind first ends behind =>
          cases tokens with
          | nil =>
              rw [listElements_nil, listElements_stop (.inr kind)]
              exact .inl ⟨rfl, rfl, h⟩
          | cons t ts =>
              refine .inr (overrun_listElements only ?_ (first t rfl) kind ends)
              rwa [kinds_of_alike_same behind]
      | @both t u ts us same behind =>
          by_cases hstop : t.kind = .rightBracket ∨ t.kind = .newline
          · rw [listElements_stop hstop, listElements_stop (same.kind ▸ hstop)]
            exact .inl ⟨rfl, rfl, h⟩
          · have hstop' : ¬(u.kind = .rightBracket ∨ u.kind = .newline) := same.kind ▸ hstop
            have helement := inStep_spacedElement stop stop' same behind
            have hlt := (spacedElement stop t ts).rest_length_le
            have hahead := ahead_of_alike helement.rest (front_spacedElement stop t ts)
              (front_spacedElement stop' u us)
            -- without a comma behind it, the element is the last one
            have hlast : (∀ comma ∈ (spacedElement stop t ts).rest.head?,
                comma.kind ≠ .comma) → (∀ comma ∈ (spacedElement stop' u us).rest.head?,
                comma.kind ≠ .comma) →
                InStep ending (listElements stop (t :: ts)) (listElements stop' (u :: us)) := by
              intro hcomma hcomma'
              rw [listElements_last hstop hcomma, listElements_last hstop' hcomma']
              exact ⟨helement.core, helement.errors, helement.rest⟩
            generalize hrest : (spacedElement stop t ts).rest = rest at hahead hlast hlt
            generalize hrest' : (spacedElement stop' u us).rest = rest' at hahead hlast
            cases hahead with
            | none => exact .inl (hlast (head_ne_of_nil rfl) (head_ne_of_nil rfl))
            | @newline _ _ line only kind first ends behind =>
                refine .inl (hlast (fun comma hmem hcomma => ?_)
                  (head_ne_of_cons rfl (by rw [kind]; decide)))
                cases hcomma.symm.trans (first comma hmem)
            | @both comma comma' more more' same' behind' =>
                by_cases hcomma : comma.kind = .comma
                · have hbound : (trivia more).rest.length < (t :: ts).length := by
                    have := (trivia more).rest_length_le
                    simp only [List.length_cons] at hlt ⊢
                    omega
                  have hothers := ih (trivia more).rest hbound
                    (alike_congr behind' (signs_trivia more) (signs_trivia more'))
                    (front_trivia more) (front_trivia more')
                  exact inStep_elementComma hstop same.kind helement hrest hrest' hcomma same'
                    hothers
                · exact .inl (hlast (head_ne_of_cons rfl hcomma)
                    (head_ne_of_cons rfl (same'.kind ▸ hcomma)))

theorem inStep_closingBracket (stop stop' : Nat) (h : Alike ending ts us) (hts : Front ts)
    (hus : Front us) :
    InStep ending (closingBracket stop ts) (closingBracket stop' us) := by
  have hboth : (∀ t ∈ ts.head?, t.kind ≠ .rightBracket) →
      (∀ u ∈ us.head?, u.kind ≠ .rightBracket) →
      InStep ending (closingBracket stop ts) (closingBracket stop' us) := by
    intro hts hus
    obtain ⟨htrees, herrors, hrest⟩ := closingBracket_other stop hts
    obtain ⟨htrees', herrors', hrest'⟩ := closingBracket_other stop' hus
    exact ⟨by rw [htrees, htrees'], by rw [herrors, herrors'], by rwa [hrest, hrest']⟩
  cases ahead_of_alike h hts hus with
  | none => exact hboth (head_ne_of_nil rfl) (head_ne_of_nil rfl)
  | newline only kind first =>
      refine hboth (fun t ht hkind => ?_) (head_ne_of_cons rfl (by rw [kind]; decide))
      cases hkind.symm.trans (first t ht)
  | @both t u ts us same behind =>
      by_cases hkind : t.kind = .rightBracket
      · rw [closingBracket, closingBracket, if_pos hkind, if_pos (same.kind ▸ hkind)]
        refine ⟨?_, rfl, behind⟩
        rw [Reading.withLeaf, Reading.withLeaf, Tree.allCore_cons, Tree.allCore_cons, same.core]
        rfl
      · exact hboth (head_ne_of_cons rfl hkind) (head_ne_of_cons rfl (same.kind ▸ hkind))

/-- Where only the ends of blocks are left, the bracket is missing. -/
theorem closingBracket_of_closing (stop : Nat) (hfront : Front tokens) (h : Closing tokens) :
    (closingBracket stop tokens).trees = [] ∧ (closingBracket stop tokens).errors ≠ [] ∧
      (closingBracket stop tokens).rest = tokens := by
  have hother : ∀ t ∈ tokens.head?, t.kind ≠ .rightBracket := by
    intro t ht hkind
    obtain ⟨ts, rfl⟩ := List.head?_eq_some_iff.mp ht
    have hmem : t.kind ∈ kinds (t :: ts) := by
      rw [kinds_cons (hfront t rfl)]
      exact List.mem_cons_self
    rcases h _ hmem with h | h <;> cases hkind.symm.trans h
  obtain ⟨htrees, herrors, hrest⟩ := closingBracket_other stop hother
  refine ⟨htrees, fun hnone => ?_, hrest⟩
  rw [hnone] at herrors
  cases herrors

theorem agrees_listBody (h : Alike ending ts us) :
    Agrees excuse ending (listBody stop ts) (listBody stop' us) := by
  have hspaced := alike_congr h (signs_trivia ts) (signs_trivia us)
  have hfront := front_listElements stop (front_trivia ts)
  have hfront' := front_listElements stop' (front_trivia us)
  rcases inStep_listElements stop stop' hspaced (front_trivia ts)
    (front_trivia us) with helements | helements
  · have hbracket := inStep_closingBracket stop stop' helements.rest hfront
      hfront'
    refine .inStep ⟨?_, ?_, hbracket.rest⟩
    · simp only [listBody, Reading.append, Tree.allCore_append, (plain_trivia _).core,
        helements.core, hbracket.core]
    · simp only [listBody, Reading.append, List.map_append, (plain_trivia _).errors,
        helements.errors, hbracket.errors]
  · obtain ⟨htrees, herrors, hrest⟩ :=
      closingBracket_of_closing stop hfront helements.rest
    obtain ⟨htrees', herrors', hrest'⟩ :=
      closingBracket_of_closing stop' hfront' helements.rest'
    refine .lost helements.only ?_ (List.append_ne_nil_of_right_ne_nil _ herrors)
      (List.append_ne_nil_of_right_ne_nil _ herrors') (hrest ▸ helements.rest)
      (hrest' ▸ helements.rest')
    simp only [listBody, Reading.append, Tree.allCore_append, (plain_trivia _).core,
      helements.core, htrees, htrees']

theorem agrees_value (same : Matches t ts u us) (behind : Alike ending ts us) :
    Agrees excuse ending (value stop t ts) (value stop' u us) := by
  by_cases hkind : t.kind = .leftBracket
  · rw [value_list hkind, value_list (same.kind ▸ hkind)]
    exact (agrees_listBody behind).wrapFrom .listValue same.core
  · rw [value_scalar hkind, value_scalar (same.kind ▸ hkind)]
    exact .inStep (inStep_scalar same behind)

theorem nextKind?_eq_first? (tokens : List Token) :
    nextKind? tokens = Sign.first? (trivia tokens).rest := by
  unfold trivia
  induction tokens with
  | nil => rfl
  | cons t ts ih =>
      rw [skip]
      cases ht : t.kind.isTrivia with
      | true =>
          rw [if_pos rfl, nextKind?, List.find?_cons_of_neg (by simp [ht])]
          exact ih
      | false =>
          rw [if_neg (by decide), nextKind?, List.find?_cons_of_pos (by simp [ht])]
          rfl

theorem nextKind?_eq_colon_iff (h : Alike ending ts us) :
    nextKind? ts = some .colon ↔ nextKind? us = some .colon := by
  rw [nextKind?_eq_first?, nextKind?_eq_first?]
  obtain ⟨rest, rest', hts, hus, -, -, -, hahead⟩ := exists_ahead h
  rw [hts, hus]
  cases hahead with
  | none => exact Iff.rfl
  | both same => rw [Sign.first?, Sign.first?, List.head?_cons, List.head?_cons, Option.map_some,
      Option.map_some, same.kind]
  | newline _ kind first =>
      refine iff_of_false (fun hcolon => ?_) fun hcolon => ?_
      · cases rest with
        | nil => cases hcolon
        | cons t ts => cases (first t rfl).symm.trans (Option.some.inj hcolon)
      · cases kind.symm.trans (Option.some.inj hcolon)

/-! ## Where only the ends of blocks are left -/

theorem Closing.tail (h : Closing (t :: ts)) : Closing ts := by
  intro kind hkind
  refine h kind ?_
  cases ht : t.kind.isTrivia with
  | true => rwa [kinds_trivia ht]
  | false =>
      rw [kinds_cons ht]
      exact List.mem_cons_of_mem _ hkind

theorem Closing.head (h : Closing (t :: ts)) (ht : t.kind.isTrivia = false) :
    t.kind = .newline ∨ t.kind = .dedent :=
  h _ (by rw [kinds_cons ht]; exact List.mem_cons_self)

theorem Closing.skip (h : Closing tokens) (passes : SyntaxKind → Bool) :
    Closing (Grammar.skip passes tokens).rest := by
  induction tokens with
  | nil => exact h
  | cons t ts ih =>
      rw [Grammar.skip]
      split
      · exact ih h.tail
      · exact h

/-- Behind blank lines, an end of a block comes next. -/
theorem Closing.blank_head (h : Closing tokens) (hts : (blank tokens).rest = t :: ts) :
    t.kind = .dedent := by
  have hrest := h.skip SyntaxKind.isSkipped
  change Closing (blank tokens).rest at hrest
  rw [hts] at hrest
  have hskipped := isSkipped_of_rest_blank hts
  refine (hrest.head (isTrivia_of_rest_blank hts)).resolve_left fun hnewline => ?_
  rw [hnewline] at hskipped
  cases hskipped

theorem Plain.quiet {r : Reading tokens} (h : Plain r) (hrest : Closing r.rest) : Quiet r :=
  ⟨h.core, hrest⟩

/-- The ends of blocks are not skipped with blank lines. -/
theorem signs_blank_of_ends (h : ∀ kind ∈ kinds tokens, kind = .dedent) :
    Sign.ofTokens (blank tokens).rest = Sign.ofTokens tokens := by
  have hskip : ∀ kind : SyntaxKind, kind.isTrivia = true → kind.isSkipped = true := by
    intro kind
    cases kind <;> decide
  have hrest := signs_skip hskip tokens
  rw [← Sign.map_kind_ofTokens] at h
  refine hrest.trans ?_
  cases hsigns : Sign.ofTokens tokens with
  | nil => rfl
  | cons s signs =>
      have hs : s.kind = .dedent := h _ (by rw [hsigns]; exact List.mem_cons_self)
      exact List.dropWhile_cons_of_neg (by rw [hs]; decide)

theorem head?_blank_ne_indent (h : ∀ kind ∈ kinds tokens, kind = .dedent) :
    ∀ first ∈ (blank tokens).rest.head?, first.kind ≠ .indent := by
  intro first hfirst hindent
  obtain ⟨more, hmore⟩ := List.head?_eq_some_iff.mp hfirst
  have hdedent := Closing.blank_head (fun kind hkind => .inr (h kind hkind)) hmore
  cases hindent.symm.trans hdedent

/-- Behind blank lines a block follows on both sides, or on neither. -/
theorem blank_cases (h : Alike ending tokens tokens') :
    ((∀ t ∈ (blank tokens).rest.head?, t.kind ≠ .indent) ∧
      ∀ u ∈ (blank tokens').rest.head?, u.kind ≠ .indent) ∨
    ∃ ending', (ending' = .newline → ending = .newline) ∧ ∃ t ts u us,
      (blank tokens).rest = t :: ts ∧ (blank tokens').rest = u :: us ∧ t.kind = .indent ∧
        Matches t ts u us ∧ Alike ending' ts us := by
  obtain ⟨ending', hle, -, ⟨hnil, hnil'⟩ | ⟨t, ts, u, us, hts, hus, same, behind⟩⟩ :=
    ahead_blank h
  · exact .inl ⟨head_ne_of_nil hnil, head_ne_of_nil hnil'⟩
  · by_cases hindent : t.kind = .indent
    · exact .inr ⟨ending', hle, t, ts, u, us, hts, hus, hindent, same, behind⟩
    · exact .inl ⟨head_ne_of_cons hts hindent, head_ne_of_cons hus (same.kind ▸ hindent)⟩

theorem rest_recoverLine_dedent (message : String) (ht : t.kind = .dedent) :
    (recoverLine stop message (t :: ts)).rest = t :: ts := by
  rw [recoverLine, Reading.rest_append, rest_recover_dedent message ht, rest_lineEnd_other]
  exact fun hnewline => by cases ht.symm.trans (Option.some.inj hnewline)

theorem valueEnd_of_ends (h : ∀ t ∈ (trivia tokens).rest.head?, t.kind = .dedent) :
    (valueEnd stop .never tokens).toReading = trivia tokens := by
  cases hts : (trivia tokens).rest with
  | nil =>
      rw [valueEnd_nil hts]
      rfl
  | cons t ts =>
      have ht : t.kind = .dedent := h t (by rw [hts]; rfl)
      rw [valueEnd_cons hts, if_neg (by rw [ht]; decide), if_pos ht]
      rfl

theorem quiet_valueEnd (h : Closing tokens) :
    Quiet (valueEnd stop .never tokens).toReading := by
  have hrest := h.skip SyntaxKind.isTrivia
  change Closing (trivia tokens).rest at hrest
  cases hts : (trivia tokens).rest with
  | nil =>
      rw [valueEnd_nil hts]
      exact (plain_trivia tokens).quiet hrest
  | cons t ts =>
      rw [valueEnd_cons hts]
      rw [hts] at hrest
      rcases hrest.head (isTrivia_of_rest hts) with ht | ht
      · rw [if_pos ht]
        exact ((plain_trivia tokens).followedBy hts
          ((plain_nothing ts).withLeaf (by rw [ht]; rfl))).quiet hrest.tail
      · rw [if_neg (by rw [ht]; decide), if_pos ht]
        exact (plain_trivia tokens).quiet (hts ▸ hrest)

theorem quiet_itemProperties (h : Closing tokens) :
    Quiet (itemProperties stop .never tokens).toReading := by
  rw [itemProperties_other fun t hmem hkind => ?_]
  · exact (plain_blank tokens).quiet (h.skip _)
  · obtain ⟨ts, hts⟩ := List.head?_eq_some_iff.mp hmem
    cases hkind.symm.trans (h.blank_head hts)

theorem quiet_members (h : Closing tokens) :
    Quiet (members stop .never tokens).toReading := by
  have hrest := h.skip SyntaxKind.isSkipped
  change Closing (blank tokens).rest at hrest
  cases hts : (blank tokens).rest with
  | nil =>
      rw [members_nil hts]
      exact (plain_blank tokens).quiet hrest
  | cons t ts =>
      have ht := h.blank_head hts
      rw [members_dedent hts ht]
      rw [hts] at hrest
      exact ((plain_blank tokens).followedBy hts
        ((plain_nothing ts).withLeaf (by rw [ht]; rfl))).quiet hrest.tail

theorem quiet_fileMembers (roots : Nat) (h : Closing tokens) :
    Quiet (fileMembers stop .never roots tokens).toReading := by
  induction tokens using rules_induction generalizing roots with
  | step tokens ih =>
      have hrest := h.skip SyntaxKind.isSkipped
      change Closing (blank tokens).rest at hrest
      cases hts : (blank tokens).rest with
      | nil =>
          rw [fileMembers_nil roots hts]
          exact (plain_blank tokens).quiet hrest
      | cons t ts =>
          have ht := h.blank_head hts
          have hmember : (fileMember stop roots t ts).rest = ts ∧
              (fileMember stop roots t ts).trees = [.node .error [], .leaf t] := by
            rw [fileMember, if_neg (by rw [ht]; decide), if_neg (by rw [ht]; decide), if_pos ht]
            exact ⟨rfl, rfl⟩
          rw [fileMembers_cons roots hts]
          rw [hts] at hrest
          have hothers := ih (fileMember stop roots t ts).rest
            (by rw [hmember.1]; exact length_lt_of_rest hts)
            (if t.kind = .ident then roots + 1 else roots) (by rw [hmember.1]; exact hrest.tail)
          refine ⟨?_, hothers.rest⟩
          rw [Reading.followedBy, Reading.behind, Reading.append, Tree.allCore_append,
            Tree.allCore_append, (plain_blank tokens).core, hmember.2, hothers.core,
            Tree.allCore_cons, Tree.allCore_cons, Tree.core_leaf (by rw [ht]; rfl)]
          rfl

/-! ## Properties and blocks -/

/-- Nothing is overrun in a text that is not cut off. -/
theorem Fits.placed {place : Place} {r : Reading tokens} (h : Fits false place depth r) :
    Placed false place depth (kinds r.rest) := by
  rcases h with ⟨h, -⟩ | ⟨-, h⟩
  · cases h
  · exact h

/-- The line end that only the second side has comes directly behind a colon.  Within a block the
first side finds the end of the block there, where it looks for a value. -/
theorem agrees_bareKey {colon : Token} (hts : (trivia tokens).rest = ts)
    (hus : (trivia tokens').rest = u :: us) (hcolon : colon.kind = .colon)
    (hkey : EndsInKey (colon :: tokens) → excuse) (only : ending = .newline)
    (kind : u.kind = .newline) (first : ∀ t ∈ ts.head?, t.kind = .dedent)
    (ends : ∀ kind ∈ kinds us, kind = .dedent) (behind : Alike .same ts us) :
    Agrees excuse ending (propertyValue stop .never tokens).toReading
      (propertyValue stop' .never tokens').toReading := by
  have hspace := plain_trivia tokens
  have hspace' := plain_trivia tokens'
  have hlines : Plain ((blank us).withLeaf u) := (plain_blank us).withLeaf (by rw [kind]; rfl)
  have hrest := alike_congr behind rfl (signs_blank_of_ends ends)
  rw [propertyValue_newline hus kind (head?_blank_ne_indent ends)]
  cases ts with
  | nil =>
      rw [propertyValue_nil hts]
      refine Agrees.weaken (?_ : Agrees excuse .same _ _) fun heq => by cases heq
      exact hspace.agrees (hspace'.followedBy hus hlines) (by rwa [hts])
  | cons t ts =>
      have ht : t.kind = .dedent := first t rfl
      have hexcuse : excuse :=
        hkey (endsInKey_colon hcolon hts (by rwa [kinds_of_alike_same behind]))
      rw [propertyValue_inline hts (by rw [ht]; decide), if_neg (by rw [ht]; decide)]
      refine Agrees.followedBy hspace hspace' hts hus
        (.behind only ?_ (.inr ⟨hexcuse, ?_, ?_⟩) ?_)
      · rw [core_recoverLine, hlines.core]
      · exact hlines.errors
      · exact errors_recoverLine stop _ _
      · rw [rest_recoverLine_dedent _ ht]
        exact hrest

/-- The line end that only the second side has comes directly behind a dash.  Both sides report
that, in their own words. -/
theorem agrees_bareDash {dash dash' : Token} (hts : (trivia tokens).rest = t :: ts)
    (hus : (trivia tokens').rest = u :: us)
    (hdash : (Tree.leaf dash).core = (Tree.leaf dash').core) (only : ending = .newline)
    (kind : u.kind = .newline) (ht : t.kind = .dedent) (behind : Alike .same (t :: ts) us) :
    Agrees excuse ending (listItem stop .never dash tokens).toReading
      (listItem stop' .never dash' tokens').toReading := by
  have hident : ¬(t.kind = .ident ∧ nextKind? ts = some .colon) := by simp [ht]
  have hident' : ¬(u.kind = .ident ∧ nextKind? us = some .colon) := by simp [kind]
  rw [listItem_cons dash hts, if_neg hident, if_neg (by rw [ht]; decide),
    if_neg (by rw [ht]; decide), listItem_cons dash' hus, if_neg hident',
    if_neg (by rw [kind]; decide), if_pos kind]
  refine Agrees.wrapFrom ?_ .listItem hdash
  refine Agrees.followedBy (plain_trivia tokens) (plain_trivia tokens') hts hus
    (.behind only ?_ (.reported ?_ ?_) ?_)
  · rw [core_recoverLine]
    exact ((plain_nothing us).withLeaf (by rw [kind]; rfl)).core.symm
  · exact errors_recoverLine_ne_nil stop _ _
  · exact List.cons_ne_nil _ _
  · rw [rest_recoverLine_dedent _ ht]
    exact behind

/-- The rules agree on lists that are alike.  If the ending is reached, the second list keeps
to its place; if the first list ends in a key, that is an excuse. -/
structure AgreeAt (excuse : Prop) (stop stop' : Nat) (tokens : List Token) : Prop where
  valueEnd : ∀ (depth : Nat) {ending tokens'}, Alike ending tokens tokens' →
    (EndsInKey tokens → excuse) →
    (ending = .newline → Placed false .within depth (kinds tokens')) →
    Agrees excuse ending (valueEnd stop .never tokens).toReading
      (valueEnd stop' .never tokens').toReading
  propertyValue : ∀ (depth : Nat) {ending tokens'} {colon : Token},
    Alike ending tokens tokens' → colon.kind = .colon →
    (EndsInKey (colon :: tokens) → excuse) →
    (ending = .newline → Placed false .within depth (kinds tokens')) →
    Agrees excuse ending (propertyValue stop .never tokens).toReading
      (propertyValue stop' .never tokens').toReading
  property : ∀ (depth : Nat) {ending tokens'} {key key' : Token}, Alike ending tokens tokens' →
    (Tree.leaf key).core = (Tree.leaf key').core → (EndsInKey tokens → excuse) →
    (ending = .newline → Placed false .within depth (kinds tokens')) →
    Agrees excuse ending (property stop .never key tokens).toReading
      (property stop' .never key' tokens').toReading
  itemProperties : ∀ (depth : Nat) {ending tokens'}, Alike ending tokens tokens' →
    (EndsInKey tokens → excuse) →
    (ending = .newline → Placed false .front depth (kinds tokens')) →
    Agrees excuse ending (itemProperties stop .never tokens).toReading
      (itemProperties stop' .never tokens').toReading
  listItem : ∀ (depth : Nat) {ending tokens'} {dash dash' : Token}, Alike ending tokens tokens' →
    (Tree.leaf dash).core = (Tree.leaf dash').core → (EndsInKey tokens → excuse) →
    (ending = .newline → Placed false .within (depth + 1) (kinds tokens')) →
    Agrees excuse ending (listItem stop .never dash tokens).toReading
      (listItem stop' .never dash' tokens').toReading
  members : ∀ (depth : Nat) {ending tokens'}, Alike ending tokens tokens' →
    (EndsInKey tokens → excuse) →
    (ending = .newline → Placed false .front (depth + 1) (kinds tokens')) →
    Agrees excuse ending (members stop .never tokens).toReading
      (members stop' .never tokens').toReading

section Step

variable (ih : ∀ shorter, shorter.length < tokens.length → AgreeAt excuse stop stop' shorter)

include ih

theorem AgreeAt.valueEnd_of (h : Alike ending tokens tokens')
    (hkey : EndsInKey tokens → excuse)
    (hplaced : ending = .newline → Placed false .within depth (kinds tokens')) :
    Agrees excuse ending (Grammar.valueEnd stop .never tokens).toReading
      (Grammar.valueEnd stop' .never tokens').toReading := by
  have hplaced' := fun hending => placed_trivia (hplaced hending)
  have hspace := plain_trivia tokens
  have hspace' := plain_trivia tokens'
  obtain ⟨rest, rest', hts, hus, hfront, hfront', hspaced, hahead⟩ := exists_ahead h
  have htrivia : Agrees excuse ending (trivia tokens) (trivia tokens') :=
    hspace.agrees hspace' (by rwa [hts, hus])
  rw [hus] at hplaced'
  cases hahead with
  | none =>
      rw [valueEnd_nil hts, valueEnd_nil hus]
      exact htrivia
  | @newline _ us u only kind first ends behind =>
      rw [valueEnd_of_ends (by rwa [hts]), valueEnd_cons hus, if_pos kind]
      refine Agrees.weaken (?_ : Agrees excuse .same _ _) fun heq => by cases heq
      exact hspace.agrees (hspace'.followedBy hus ((plain_nothing us).withLeaf (by rw [kind]; rfl)))
        (by rwa [hts])
  | @both t u ts us same behind =>
      rw [valueEnd_cons hts, valueEnd_cons hus, ← same.kind]
      split
      · exact Agrees.followedBy hspace hspace' hts hus
          (((plain_nothing ts).agrees (plain_nothing us) behind).withLeaf same.core)
      · split
        · exact htrivia
        · split
          · rename_i ht
            have hblock := (ih ts (length_lt_of_rest hts)).members depth behind
              (fun h => hkey (.of_trivia (hts ▸ h.cons t))) fun hending => by
                have hline := hplaced' hending
                rw [kinds_of_isLayout (by rw [← same.kind, ht]; rfl), ← same.kind, ht] at hline
                exact hline.not_indent.elim
            refine Agrees.followedBy hspace hspace' hts hus ?_
            exact (((hblock.wrapFrom .block same.core).wrap .error).afterFirst t u).report _ _ _
          · exact Agrees.followedBy hspace hspace' hts hus
              (agrees_recoverLine _ hspaced hfront hfront')

/-- A value, and the end of its line. -/
theorem AgreeAt.valueLine (hlt : ts.length < tokens.length) (same : Matches t ts u us)
    (behind : Alike ending ts us) (ht : beginsValue t.kind = true)
    (hkey : EndsInKey (t :: ts) → excuse)
    (hplaced : ending = .newline → Placed false .within depth (kinds (u :: us))) :
    Agrees excuse ending
      ((value stop t ts).append (Grammar.valueEnd stop .never (value stop t ts).rest).toReading)
      ((value stop' u us).append
        (Grammar.valueEnd stop' .never (value stop' u us).rest).toReading) := by
  have hu : beginsValue u.kind = true := same.kind ▸ ht
  have hle := (value stop t ts).rest_length_le
  refine (agrees_value same behind).append (fun ending' hending hrest => ?_) quiet_valueEnd
    quiet_valueEnd
  refine (ih (value stop t ts).rest (by omega)).valueEnd depth hrest
    (fun h => hkey ((closed_endsInKey stop).value ht ts h)) fun hnewline => ?_
  exact (fits_value hu (placed_tail (isLayout_of_beginsValue hu)
    (hplaced (hending hnewline)))).placed

/-- Behind the end of the line a block follows on both sides, or on neither. -/
theorem AgreeAt.valueBehindLine (hts : (trivia tokens).rest = t :: ts)
    (hus : (trivia tokens').rest = u :: us) (same : Matches t ts u us)
    (behind : Alike ending ts us) (ht : t.kind = .newline)
    (hkey : EndsInKey (t :: ts) → excuse)
    (hplaced : ending = .newline → Placed false .within depth (kinds (u :: us))) :
    Agrees excuse ending (Grammar.propertyValue stop .never tokens).toReading
      (Grammar.propertyValue stop' .never tokens').toReading := by
  have hspace := plain_trivia tokens
  have hspace' := plain_trivia tokens'
  have hu : u.kind = .newline := same.kind ▸ ht
  rcases blank_cases behind with ⟨hfirst, hfirst'⟩ | ⟨ending', hle, first, more, first', more',
    hmore, hmore', hindent, same', behind'⟩
  · obtain ⟨ending', hle, hrest, -⟩ := ahead_blank behind
    have hlines : Agrees excuse ending (blank ts) (blank us) :=
      ((plain_blank ts).agrees (plain_blank us) hrest).weaken hle
    rw [propertyValue_newline hts ht hfirst, propertyValue_newline hus hu hfirst']
    exact Agrees.followedBy hspace hspace' hts hus (hlines.withLeaf same.core)
  · have hlt := length_lt_of_rest hts
    have hlt' := length_lt_of_rest hmore
    have hblock := (ih more (by omega)).members depth behind'
      (fun h => hkey (.cons (.of_blank (hmore ▸ h.cons first)) t)) fun hending => by
        have hline := hplaced (hle hending)
        rw [kinds_of_isLayout (by rw [hu]; rfl), hu] at hline
        have hfirst := placed_of_rest_blank hline.of_newline hmore'
        rw [← same'.kind, hindent] at hfirst
        exact hfirst.of_indent
    rw [propertyValue_block hts ht hmore hindent,
      propertyValue_block hus hu hmore' (same'.kind ▸ hindent)]
    refine Agrees.followedBy hspace hspace' hts hus (Agrees.withLeaf ?_ same.core)
    refine Agrees.followedBy (plain_blank ts) (plain_blank us) hmore hmore' ?_
    exact ((hblock.wrapFrom .block same'.core).weaken hle).afterFirst first first'

theorem AgreeAt.propertyValue_of {colon : Token} (h : Alike ending tokens tokens')
    (hcolon : colon.kind = .colon) (hkey : EndsInKey (colon :: tokens) → excuse)
    (hplaced : ending = .newline → Placed false .within depth (kinds tokens')) :
    Agrees excuse ending (Grammar.propertyValue stop .never tokens).toReading
      (Grammar.propertyValue stop' .never tokens').toReading := by
  have hplaced' := fun hending => placed_trivia (hplaced hending)
  have hspace := plain_trivia tokens
  have hspace' := plain_trivia tokens'
  obtain ⟨rest, rest', hts, hus, hfront, hfront', hspaced, hahead⟩ := exists_ahead h
  have htrivia : Agrees excuse ending (trivia tokens) (trivia tokens') :=
    hspace.agrees hspace' (by rwa [hts, hus])
  rw [hus] at hplaced'
  cases hahead with
  | none =>
      rw [propertyValue_nil hts, propertyValue_nil hus]
      exact htrivia
  | @newline _ us u only kind first ends behind =>
      exact agrees_bareKey hts hus hcolon hkey only kind first ends behind
  | @both t u ts us same behind =>
      have hlineKey : EndsInKey (t :: ts) → excuse := fun h =>
        hkey (.cons (.of_trivia (hts ▸ h)) colon)
      by_cases ht : t.kind = .newline
      · exact AgreeAt.valueBehindLine ih hts hus same behind ht hlineKey hplaced'
      · rw [propertyValue_inline hts ht, propertyValue_inline hus (same.kind ▸ ht), ← same.kind]
        split
        · rename_i hbegins
          refine Agrees.followedBy hspace hspace' hts hus ?_
          exact (AgreeAt.valueLine ih (length_lt_of_rest hts) same behind hbegins hlineKey
            hplaced').afterFirst t u
        · exact Agrees.followedBy hspace hspace' hts hus
            (agrees_recoverLine _ hspaced hfront hfront')

theorem AgreeAt.property_of {key key' : Token} (h : Alike ending tokens tokens')
    (hcore : (Tree.leaf key).core = (Tree.leaf key').core) (hkey : EndsInKey tokens → excuse)
    (hplaced : ending = .newline → Placed false .within depth (kinds tokens')) :
    Agrees excuse ending (Grammar.property stop .never key tokens).toReading
      (Grammar.property stop' .never key' tokens').toReading := by
  have hplaced' := fun hending => placed_trivia (hplaced hending)
  have hspace := plain_trivia tokens
  have hspace' := plain_trivia tokens'
  obtain ⟨rest, rest', hts, hus, hfront, hfront', hspaced, hahead⟩ := exists_ahead h
  rw [hus] at hplaced'
  -- without a colon the line is set aside
  have hother : (∀ t ∈ rest.head?, t.kind ≠ .colon) → (∀ u ∈ rest'.head?, u.kind ≠ .colon) →
      Agrees excuse ending (Grammar.property stop .never key tokens).toReading
        (Grammar.property stop' .never key' tokens').toReading := by
    intro hcolon hcolon'
    rw [property_other key hts hcolon, property_other key' hus hcolon']
    exact (Agrees.followedBy hspace hspace' hts hus
      (agrees_recoverLine _ hspaced hfront hfront')).wrapFrom .property hcore
  cases hahead with
  | none => exact hother (head_ne_of_nil rfl) (head_ne_of_nil rfl)
  | @newline _ us u only kind first ends behind =>
      refine hother (fun t ht hcolon => ?_) (head_ne_of_cons rfl (by rw [kind]; decide))
      cases hcolon.symm.trans (first t ht)
  | @both t u ts us same behind =>
      by_cases ht : t.kind = .colon
      · have hu : u.kind = .colon := same.kind ▸ ht
        rw [property_colon key hts ht, property_colon key' hus hu]
        have hvalue := (ih ts (length_lt_of_rest hts)).propertyValue depth behind ht
          (fun h => hkey (.of_trivia (hts ▸ h))) fun hending =>
            placed_tail (by rw [hu]; rfl) (hplaced' hending)
        exact (Agrees.followedBy hspace hspace' hts hus
          (hvalue.withLeaf same.core)).wrapFrom .property hcore
      · exact hother (head_ne_of_cons rfl ht) (head_ne_of_cons rfl (same.kind ▸ ht))

theorem AgreeAt.properties_of (depth : Nat) (hlt : ts.length < tokens.length)
    (same : Matches t ts u us) (behind : Alike ending ts us) (ht : t.kind = .ident)
    (hkey : EndsInKey (t :: ts) → excuse)
    (hplaced : ending = .newline → Placed false .within depth (kinds us)) :
    Agrees excuse ending (properties stop t ts) (properties stop' u us) := by
  have hu : u.kind.isSynthetic = false := by rw [← same.kind, ht]; rfl
  have hle := (Grammar.property stop .never t ts).rest_length_le
  have hfirst := (ih ts hlt).property depth behind same.core (fun h => hkey (h.cons t)) hplaced
  refine hfirst.append (fun ending' hending hrest => ?_) quiet_itemProperties
    quiet_itemProperties
  have hlater : EndsInKey (Grammar.property stop .never t ts).rest → excuse := fun h =>
    hkey (((closed_endsInKey stop).blocks (ts.length + 1)).property _ t ts (Nat.lt_succ_self _) h)
  refine (ih _ (by omega)).itemProperties depth hrest hlater fun hnewline => ?_
  exact ((fitsAt false stop' us).property hu (hplaced (hending hnewline))).placed

theorem AgreeAt.itemProperties_of (h : Alike ending tokens tokens')
    (hkey : EndsInKey tokens → excuse)
    (hplaced : ending = .newline → Placed false .front depth (kinds tokens')) :
    Agrees excuse ending (Grammar.itemProperties stop .never tokens).toReading
      (Grammar.itemProperties stop' .never tokens').toReading := by
  have hspace := plain_blank tokens
  have hspace' := plain_blank tokens'
  obtain ⟨ending', hle, hrest, hahead⟩ := ahead_blank h
  refine Agrees.weaken ?_ hle
  rcases hahead with ⟨hnil, hnil'⟩ | ⟨t, ts, u, us, hts, hus, same, behind⟩
  · rw [itemProperties_other (head_ne_of_nil hnil), itemProperties_other (head_ne_of_nil hnil')]
    exact hspace.agrees hspace' hrest
  · by_cases ht : t.kind = .ident
    · have hu : u.kind = .ident := same.kind ▸ ht
      rw [itemProperties_ident hts ht, itemProperties_ident hus hu]
      refine Agrees.followedBy hspace hspace' hts hus (Agrees.afterFirst ?_ t u)
      refine AgreeAt.properties_of ih depth (length_lt_of_rest hts) same behind ht
        (fun h => hkey (.of_blank (hts ▸ h))) fun hending => ?_
      have hline := placed_of_rest_blank (hplaced (hle hending)) hus
      rwa [hu] at hline
    · rw [itemProperties_other (head_ne_of_cons hts ht),
        itemProperties_other (head_ne_of_cons hus (same.kind ▸ ht))]
      exact hspace.agrees hspace' hrest

theorem AgreeAt.listItem_of {dash dash' : Token} (h : Alike ending tokens tokens')
    (hdash : (Tree.leaf dash).core = (Tree.leaf dash').core) (hkey : EndsInKey tokens → excuse)
    (hplaced : ending = .newline → Placed false .within (depth + 1) (kinds tokens')) :
    Agrees excuse ending (Grammar.listItem stop .never dash tokens).toReading
      (Grammar.listItem stop' .never dash' tokens').toReading := by
  have hplaced' := fun hending => placed_trivia (hplaced hending)
  have hspace := plain_trivia tokens
  have hspace' := plain_trivia tokens'
  obtain ⟨rest, rest', hts, hus, hfront, hfront', hspaced, hahead⟩ := exists_ahead h
  rw [hus] at hplaced'
  cases hahead with
  | none =>
      rw [listItem_nil dash hts, listItem_nil dash' hus]
      exact (hspace.agrees hspace' (by rwa [hts, hus])).wrapFrom .listItem hdash
  | @newline _ us u only kind first ends behind =>
      cases rest with
      | nil =>
          -- within a block its end is left
          have hline := hplaced' only
          rw [kinds_of_isLayout (by rw [kind]; rfl), kind, ← kinds_of_alike_same behind] at hline
          cases hline.of_newline
      | cons t ts => exact agrees_bareDash hts hus hdash only kind (first t rfl) behind
  | @both t u ts us same behind =>
      have hlt := length_lt_of_rest hts
      have hcolon := nextKind?_eq_colon_iff behind
      have hitemKey : EndsInKey (t :: ts) → excuse := fun h => hkey (.of_trivia (hts ▸ h))
      rw [listItem_cons dash hts, listItem_cons dash' hus, ← same.kind]
      refine Agrees.wrapFrom (Agrees.followedBy hspace hspace' hts hus ?_) .listItem hdash
      by_cases hident : t.kind = .ident ∧ nextKind? ts = some .colon
      · have hident' : t.kind = .ident ∧ nextKind? us = some .colon :=
          ⟨hident.1, hcolon.mp hident.2⟩
        rw [if_pos hident, if_pos hident']
        refine Agrees.afterFirst ?_ t u
        refine AgreeAt.properties_of ih (depth + 1) hlt same behind hident.1 hitemKey
          fun hending => ?_
        exact placed_tail (by rw [← same.kind, hident.1]; rfl) (hplaced' hending)
      · have hident' : ¬(t.kind = .ident ∧ nextKind? us = some .colon) :=
          fun h => hident ⟨h.1, hcolon.mpr h.2⟩
        rw [if_neg hident, if_neg hident']
        split
        · rename_i hbegins
          exact (AgreeAt.valueLine ih hlt same behind hbegins hitemKey hplaced').afterFirst t u
        · split
          · have hline : Agrees excuse ending (.nothing ts) (.nothing us) :=
              (plain_nothing ts).agrees (plain_nothing us) behind
            exact (hline.withLeaf same.core).report _ _ _
          · exact agrees_recoverLine _ hspaced hfront hfront'

end Step

/-- One member of a block. -/
theorem AgreeAt.member (hat : AgreeAt excuse stop stop' ts) (depth : Nat)
    (same : Matches t ts u us) (behind : Alike ending ts us)
    (hus : (blank tokens').rest = u :: us) (hkey : EndsInKey (t :: ts) → excuse)
    (hplaced : ending = .newline → Placed false .front (depth + 1) (kinds tokens')) :
    Agrees excuse ending (Grammar.member stop t ts) (Grammar.member stop' u us) := by
  have hline := fun hending => placed_of_rest_blank (hplaced hending) hus
  have hlater : EndsInKey ts → excuse := fun h => hkey (h.cons t)
  unfold Grammar.member
  rw [← same.kind]
  split
  · rename_i ht
    rw [← same.kind, ht] at hline
    exact hat.property _ behind same.core hlater hline
  · split
    · rename_i ht
      rw [← same.kind, ht] at hline
      exact hat.listItem _ behind same.core hlater hline
    · split
      · rename_i ht
        rw [← same.kind, ht] at hline
        have hblock := hat.members _ behind hlater fun hending => (hline hending).of_indent
        exact ((hblock.wrapFrom .block same.core).wrap .error).report _ _ _
      · exact (agrees_errorFrom behind).report _ _ _

theorem AgreeAt.members_of (ih : ∀ shorter, shorter.length < tokens.length →
    AgreeAt excuse stop stop' shorter) (h : Alike ending tokens tokens')
    (hkey : EndsInKey tokens → excuse)
    (hplaced : ending = .newline → Placed false .front (depth + 1) (kinds tokens')) :
    Agrees excuse ending (Grammar.members stop .never tokens).toReading
      (Grammar.members stop' .never tokens').toReading := by
  have hspace := plain_blank tokens
  have hspace' := plain_blank tokens'
  obtain ⟨ending', hle, hrest, hahead⟩ := ahead_blank h
  refine Agrees.weaken ?_ hle
  rcases hahead with ⟨hnil, hnil'⟩ | ⟨t, ts, u, us, hts, hus, same, behind⟩
  · rw [members_nil hnil, members_nil hnil']
    exact hspace.agrees hspace' hrest
  · have hlt := length_lt_of_rest hts
    by_cases ht : t.kind = .dedent
    · rw [members_dedent hts ht, members_dedent hus (same.kind ▸ ht)]
      have hline : Agrees excuse ending' (.nothing ts) (.nothing us) :=
        (plain_nothing ts).agrees (plain_nothing us) behind
      exact Agrees.followedBy hspace hspace' hts hus (hline.withLeaf same.core)
    · have hu : u.kind ≠ .dedent := same.kind ▸ ht
      have hlineKey : EndsInKey (t :: ts) → excuse := fun h => hkey (.of_blank (hts ▸ h))
      have hmember := (ih ts hlt).member depth same behind hus hlineKey
        fun hending => hplaced (hle hending)
      rw [members_cons hts ht, members_cons hus hu]
      refine Agrees.followedBy hspace hspace' hts hus (Agrees.afterFirst ?_ t u)
      refine hmember.append (fun ending'' hending hbehind => ?_) quiet_members quiet_members
      refine (ih _ (Nat.lt_of_le_of_lt (Grammar.member stop t ts).rest_length_le hlt)).members
        depth hbehind (fun h => hlineKey ((closed_endsInKey stop).member t ts h))
        fun hnewline => ?_
      exact ((fitsAt false stop' us).member (hplaced (hle (hending hnewline))) hus hu).placed

theorem agreeAt (excuse : Prop) (stop stop' : Nat) (tokens : List Token) :
    AgreeAt excuse stop stop' tokens := by
  induction tokens using rules_induction with
  | step tokens ih =>
      exact ⟨fun _ => AgreeAt.valueEnd_of ih, fun _ => AgreeAt.propertyValue_of ih,
        fun _ => AgreeAt.property_of ih, fun _ => AgreeAt.itemProperties_of ih,
        fun _ => AgreeAt.listItem_of ih, fun _ => AgreeAt.members_of ih⟩

/-! ## Files -/

theorem agrees_fileMember (stop stop' roots : Nat) (same : Matches t ts u us)
    (behind : Alike ending ts us) (hus : (blank tokens').rest = u :: us)
    (hkey : EndsInKey (t :: ts) → excuse)
    (hplaced : ending = .newline → Placed false .front 0 (kinds tokens')) :
    Agrees excuse ending (fileMember stop roots t ts) (fileMember stop' roots u us) := by
  have hat := agreeAt excuse stop stop' ts
  have hline := fun hending => placed_of_rest_blank (hplaced hending) hus
  have hlater : EndsInKey ts → excuse := fun h => hkey (h.cons t)
  unfold fileMember
  rw [← same.kind]
  split
  · rename_i ht
    rw [← same.kind, ht] at hline
    have hroot := hat.property _ behind same.core hlater hline
    split
    · exact hroot.report _ _ _
    · exact hroot
  · split
    · rename_i ht
      rw [← same.kind, ht] at hline
      have hblock := hat.members _ behind hlater fun hending => (hline hending).of_indent
      exact ((hblock.wrapFrom .block same.core).wrap .error).report _ _ _
    · split
      · refine .inStep ⟨?_, rfl, behind⟩
        rw [Tree.allCore_cons, Tree.allCore_cons, Tree.allCore_cons, Tree.allCore_cons, same.core]
      · exact (agrees_errorFrom behind).report _ _ _

/-- Files whose tokens are alike. -/
theorem agrees_fileMembers (roots : Nat) (h : Alike ending tokens tokens')
    (hkey : EndsInKey tokens → excuse)
    (hplaced : ending = .newline → Placed false .front 0 (kinds tokens')) :
    Agrees excuse ending (fileMembers stop .never roots tokens).toReading
      (fileMembers stop' .never roots tokens').toReading := by
  induction tokens using rules_induction generalizing tokens' ending roots with
  | step tokens ih =>
      have hspace := plain_blank tokens
      have hspace' := plain_blank tokens'
      obtain ⟨ending', hle, hrest, hahead⟩ := ahead_blank h
      refine Agrees.weaken ?_ hle
      rcases hahead with ⟨hnil, hnil'⟩ | ⟨t, ts, u, us, hts, hus, same, behind⟩
      · rw [fileMembers_nil roots hnil, fileMembers_nil roots hnil']
        exact hspace.agrees hspace' hrest
      · have hlt := length_lt_of_rest hts
        have hlineKey : EndsInKey (t :: ts) → excuse := fun h => hkey (.of_blank (hts ▸ h))
        have hmember := agrees_fileMember stop stop' roots same behind hus hlineKey
          fun hending => hplaced (hle hending)
        rw [fileMembers_cons roots hts, fileMembers_cons roots hus, ← same.kind]
        refine Agrees.followedBy hspace hspace' hts hus (Agrees.afterFirst ?_ t u)
        refine hmember.append (fun ending'' hending hbehind => ?_) (quiet_fileMembers _)
          (quiet_fileMembers _)
        refine ih _ (Nat.lt_of_le_of_lt (fileMember stop roots t ts).rest_length_le hlt) _ hbehind
          (fun h => hlineKey ((closed_endsInKey stop).fileMember roots t ts h))
          fun hnewline => ?_
        exact (fits_fileMember roots (hplaced (hle (hending hnewline))) hus).placed

end Grammar
end ModelWorkspace
