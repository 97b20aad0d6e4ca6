import ModelWorkspace.Proofs.Tree.Pruned
import ModelWorkspace.Proofs.Tree.Rules

/-!
# Reading what is not closed

Tokens are read side by side with the same tokens and some marks behind them that end blocks.
At the place where the first list ends, a rule finds a mark instead, and does something else:
a block takes it for its end, a list for an element, and a rule that asks for something else
sets nothing aside in an `error` node.  None of it shows in the pruned trees, and what is left
is nothing but marks (`Parallel`).  So the pruned trees are the same (`parallel_fileMembers`).
-/

namespace ModelWorkspace
namespace Grammar

/-- The second list has marks that end blocks behind the tokens of the first. -/
inductive Closes : List Token → List Token → Prop
  | nil : Closes [] []
  | mark {u : Token} {us : List Token} (ends : u.EndsBlock) (behind : Closes [] us) :
      Closes [] (u :: us)
  | cons (t : Token) {ts us : List Token} (behind : Closes ts us) : Closes (t :: ts) (t :: us)

/-- Both sides read the same but for marks that end blocks, and only such marks are left to the
second side alone. -/
structure Parallel {tokens tokens' : List Token} (r : Reading tokens) (r' : Reading tokens') :
    Prop where
  trees : Tree.allPruned r.trees = Tree.allPruned r'.trees
  rest : Closes r.rest r'.rest

variable {stop : Nat} {tokens tokens' ts us : List Token} {t : Token}

theorem closes_append (ts : List Token) {marks : List Token} (h : ∀ t ∈ marks, t.EndsBlock) :
    Closes ts (ts ++ marks) := by
  induction ts with
  | nil =>
      induction marks with
      | nil => exact .nil
      | cons u us ih =>
          obtain ⟨hu, hus⟩ := List.forall_mem_cons.mp h
          exact .mark hu (ih hus)
  | cons t ts ih => exact .cons t ih

/-! ## Readings side by side -/

section Combinators

variable {left left' : List Token} {r : Reading tokens} {r' : Reading tokens'}

theorem Closes.nothing (h : Closes ts us) : Parallel (.nothing ts) (.nothing us) :=
  ⟨rfl, h⟩

theorem Parallel.withLeaf (h : Parallel r r') (t : Token) :
    Parallel (r.withLeaf t) (r'.withLeaf t) :=
  ⟨congrArg (_ ++ ·) h.trees, h.rest⟩

theorem Parallel.afterFirst (h : Parallel r r') (t : Token) :
    Parallel (r.behind t) (r'.behind t) :=
  ⟨h.trees, h.rest⟩

theorem Parallel.report (h : Parallel r r') (message message' : String)
    (range range' : TextRange) :
    Parallel (r.report message range) (r'.report message' range') :=
  ⟨h.trees, h.rest⟩

theorem Parallel.wrap (h : Parallel r r') (kind : SyntaxKind) :
    Parallel (r.wrap kind) (r'.wrap kind) :=
  ⟨congrArg (· ++ []) (Tree.pruned_node_congr kind h.trees), h.rest⟩

theorem Parallel.wrapFrom (h : Parallel r r') (kind : SyntaxKind) (t : Token) :
    Parallel (r.wrapFrom kind t) (r'.wrapFrom kind t) :=
  ⟨congrArg (· ++ []) (Tree.pruned_node_congr kind (congrArg (_ ++ ·) h.trees)), h.rest⟩

theorem allPruned_append_congr {ts ts' us us' : List Tree}
    (h : Tree.allPruned ts = Tree.allPruned ts') (hbehind : Tree.allPruned us = Tree.allPruned us') :
    Tree.allPruned (ts ++ us) = Tree.allPruned (ts' ++ us') := by
  rw [Tree.allPruned_append, Tree.allPruned_append, h, hbehind]

theorem Parallel.append (h : Parallel r r') {b : Reading r.rest} {b' : Reading r'.rest}
    (hb : Parallel b b') : Parallel (r.append b) (r'.append b') :=
  ⟨allPruned_append_congr h.trees hb.trees, hb.rest⟩

theorem Parallel.followedBy (h : Parallel r r') (hleft : r.rest = left) (hleft' : r'.rest = left')
    {b : Reading left} {b' : Reading left'} (hb : Parallel b b') :
    Parallel (r.followedBy hleft b) (r'.followedBy hleft' b') :=
  ⟨allPruned_append_congr h.trees hb.trees, hb.rest⟩

/-- At the end of the first list the second side goes on with marks. -/
theorem Parallel.atEnd (h : Parallel r r') (hnil : r.rest = []) (hleft' : r'.rest = left')
    {b' : Reading left'} (hb : Parallel (.nothing []) b') :
    Parallel r (r'.followedBy hleft' b') := by
  refine ⟨?_, by rw [hnil]; exact hb.rest⟩
  rw [← List.append_nil r.trees]
  exact allPruned_append_congr h.trees hb.trees

end Combinators

/-- The same token stands behind both readings, or on the first side nothing. -/
theorem Parallel.cases {r : Reading tokens} {r' : Reading tokens'} (h : Parallel r r') :
    (r.rest = [] ∧ Closes [] r'.rest) ∨
      ∃ t ts us, r.rest = t :: ts ∧ r'.rest = t :: us ∧ Closes ts us := by
  have hrest := h.rest
  generalize r.rest = left at hrest ⊢
  generalize r'.rest = left' at hrest ⊢
  cases hrest with
  | nil => exact .inl ⟨rfl, .nil⟩
  | mark ends behind => exact .inl ⟨rfl, .mark ends behind⟩
  | cons t behind => exact .inr ⟨t, _, _, rfl, rfl, behind⟩

theorem Closes.head? (h : Closes [] us) : ∀ u ∈ us.head?, u.kind = .dedent := by
  cases h with
  | nil => exact fun _ hu => by cases hu
  | mark ends => exact fun _ hu => Option.some.inj hu ▸ ends.1

theorem Closes.head_ne (h : Closes [] us) {kind : SyntaxKind} (hkind : kind ≠ .dedent) :
    ∀ u ∈ us.head?, u.kind ≠ kind := by
  intro u hu heq
  exact hkind (heq.symm.trans (h.head? u hu))

/-! ## Rules without blocks -/

theorem parallel_skip {passes : SyntaxKind → Bool} (hmark : passes .dedent = false)
    (h : Closes ts us) : Parallel (skip passes ts) (skip passes us) := by
  induction h with
  | nil => exact Closes.nil.nothing
  | @mark u us ends behind ih =>
      have hu : ¬ passes u.kind = true := by
        rw [ends.1, hmark]
        decide
      rw [skip, skip, if_neg hu]
      exact (Closes.mark ends behind).nothing
  | cons t behind ih =>
      rw [skip, skip]
      split
      · exact ih.withLeaf t
      · exact (Closes.cons t behind).nothing

theorem parallel_trivia (h : Closes ts us) : Parallel (trivia ts) (trivia us) :=
  parallel_skip rfl h

theorem parallel_blank (h : Closes ts us) : Parallel (blank ts) (blank us) :=
  parallel_skip rfl h

theorem parallel_lineEnd (h : Closes ts us) : Parallel (lineEnd ts) (lineEnd us) := by
  cases h with
  | nil => exact Closes.nil.nothing
  | @mark u us ends behind =>
      have hu : u.kind ≠ .newline := by
        rw [ends.1]
        decide
      rw [lineEnd, lineEnd, if_neg hu]
      exact (Closes.mark ends behind).nothing
  | cons t behind =>
      rw [lineEnd, lineEnd]
      split
      · exact behind.nothing.withLeaf t
      · exact (Closes.cons t behind).nothing

theorem parallel_errorFrom (t : Token) (h : Closes ts us) :
    Parallel (errorFrom t ts) (errorFrom t us) :=
  (parallel_skip rfl h).wrapFrom .error t

theorem parallel_recover (message : String) (h : Closes ts us) :
    Parallel (recover stop message ts) (recover stop message us) := by
  cases h with
  | nil => exact ⟨rfl, .nil⟩
  | @mark u us ends behind =>
      rw [recover, recover]
      rw [if_pos ends.1]
      exact ⟨rfl, .mark ends behind⟩
  | cons t behind =>
      rw [recover, recover]
      refine Parallel.report ?_ _ _ _ _
      split
      · exact (Closes.cons t behind).nothing.wrap .error
      · split
        · exact (behind.nothing.wrapFrom .error t).afterFirst t
        · exact (parallel_errorFrom t behind).afterFirst t

theorem parallel_recoverLine (message : String) (h : Closes ts us) :
    Parallel (recoverLine stop message ts) (recoverLine stop message us) :=
  have hset := parallel_recover message h
  hset.append (parallel_lineEnd hset.rest)

/-- Where a line would be set aside, a mark is left where it stands. -/
theorem parallel_recoverLine_mark (message : String) (h : Closes [] us) :
    Parallel (.nothing []) (recoverLine stop message us) :=
  have hset : Parallel (recoverLine stop message []) (recoverLine stop message us) :=
    parallel_recoverLine message h
  ⟨hset.trees, hset.rest⟩

theorem parallel_nameTail (h : Closes ts us) :
    Parallel (nameTail stop ts) (nameTail stop us) := by
  fun_induction nameTail stop ts generalizing us with
  | case1 dot ident ts hdot hident ih =>
      obtain _ | _ | ⟨_, _ | _ | ⟨_, behind⟩⟩ := h
      rw [nameTail, if_pos hdot, if_pos hident]
      exact ((ih behind).withLeaf ident).withLeaf dot
  | case2 dot ident ts hdot hident =>
      obtain _ | _ | ⟨_, _ | _ | ⟨_, behind⟩⟩ := h
      rw [nameTail, if_pos hdot, if_neg hident]
      exact ((Closes.cons ident behind).nothing.withLeaf dot).report _ _ _ _
  | case3 dot ident ts hdot =>
      obtain _ | _ | ⟨_, _ | _ | ⟨_, behind⟩⟩ := h
      rw [nameTail, if_neg hdot]
      exact (Closes.cons dot (.cons ident behind)).nothing
  | case4 dot hdot =>
      obtain _ | _ | ⟨_, behind⟩ := h
      have hends := behind
      cases behind with
      | nil =>
          rw [nameTail, if_pos hdot]
          exact (Closes.nil.nothing.withLeaf dot).report _ _ _ _
      | @mark u us ends =>
          have hu : u.kind ≠ .ident := by
            rw [ends.1]
            decide
          rw [nameTail, if_pos hdot, if_neg hu]
          exact (hends.nothing.withLeaf dot).report _ _ _ _
  | case5 dot hdot =>
      obtain _ | _ | ⟨_, behind⟩ := h
      have hends := behind
      cases behind with
      | nil =>
          rw [nameTail, if_neg hdot]
          exact (Closes.cons dot .nil).nothing
      | mark ends =>
          rw [nameTail, if_neg hdot]
          exact (Closes.cons dot hends).nothing
  | case6 =>
      have hends := h
      cases h with
      | nil => exact Closes.nil.nothing
      | @mark u us ends behind =>
          have hu : u.kind ≠ .dot := by
            rw [ends.1]
            decide
          cases behind <;>
            · rw [nameTail, if_neg hu]
              exact hends.nothing

theorem parallel_scalar (first : Token) (h : Closes ts us) :
    Parallel (scalar stop first ts) (scalar stop first us) := by
  rw [scalar, scalar]
  split
  · exact ((parallel_nameTail h).wrapFrom .qualifiedName first).wrap .scalar
  · exact h.nothing.wrapFrom .scalar first

theorem parallel_listElement (first : Token) (h : Closes ts us) :
    Parallel (listElement stop first ts) (listElement stop first us) := by
  rw [listElement, listElement]
  split
  · exact parallel_scalar first h
  · exact (h.nothing.wrapFrom .error first).report _ _ _ _

theorem parallel_spacedElement (first : Token) (h : Closes ts us) :
    Parallel (spacedElement stop first ts) (spacedElement stop first us) :=
  have helement := parallel_listElement first h
  helement.append (parallel_trivia helement.rest)

/-- A mark at the end is an element of the list, and the last one. -/
theorem parallel_listElements_mark (h : Closes [] us) :
    Parallel (.nothing []) (listElements stop us) := by
  cases h with
  | nil =>
      rw [listElements_nil]
      exact Closes.nil.nothing
  | @mark u us ends behind =>
      have hu : ¬(u.kind = .rightBracket ∨ u.kind = .newline) := by
        rw [ends.1]
        decide
      have helement : listElement stop u us =
          ((Reading.nothing us).wrapFrom .error u).report "expected a value in list" u.range := by
        rw [listElement, ends.1]
        rfl
      have hnode : Tree.pruned (.node .error [.leaf u]) = [] := by
        have hleaf : Tree.allPruned [.leaf u] = [] := by
          rw [Tree.allPruned_cons, Tree.pruned, if_pos ends]
          rfl
        exact if_pos ⟨rfl, hleaf⟩
      have htrivia := parallel_trivia behind
      have hspaced : Parallel (.nothing []) (spacedElement stop u us) := by
        rw [spacedElement, helement]
        exact ⟨congrArg₂ (· ++ ·) hnode.symm htrivia.trees, htrivia.rest⟩
      rw [listElements_last hu (hspaced.rest.head_ne (by decide))]
      exact ⟨hspaced.trees, hspaced.rest⟩

theorem parallel_listElements (h : Closes ts us) :
    Parallel (listElements stop ts) (listElements stop us) := by
  induction ts using rules_induction generalizing us with
  | step ts ih =>
      cases h with
      | nil => exact ⟨rfl, by rw [listElements_nil]; exact .nil⟩
      | mark ends behind =>
          rw [listElements_nil]
          exact parallel_listElements_mark (.mark ends behind)
      | @cons t ts us behind =>
          by_cases ht : t.kind = .rightBracket ∨ t.kind = .newline
          · rw [listElements_stop ht, listElements_stop ht]
            exact (Closes.cons t behind).nothing
          · have hspaced : Parallel (spacedElement stop t ts) (spacedElement stop t us) :=
              parallel_spacedElement t behind
            have hlength := (spacedElement stop t ts).rest_length_le
            -- the two sides go on with the same token, or one ends where the other has its mark
            rcases hspaced.cases with ⟨hnil, hends⟩ | ⟨u, more, more', hmore, hmore', hbehind⟩
            · rw [listElements_last ht (head_ne_of_nil hnil),
                listElements_last ht (hends.head_ne (by decide))]
              exact hspaced.afterFirst t
            · by_cases hcomma : u.kind = .comma
              · have hspace := parallel_trivia hbehind
                have hshorter : (trivia more).rest.length < (t :: ts).length := by
                  have hle := (trivia more).rest_length_le
                  rw [hmore] at hlength
                  simp only [List.length_cons] at hlength ⊢
                  omega
                rw [listElements_comma ht hmore hcomma, listElements_comma ht hmore' hcomma]
                exact (hspaced.followedBy hmore hmore'
                  ((hspace.append (ih _ hshorter hspace.rest)).withLeaf u)).afterFirst t
              · rw [listElements_last ht (head_ne_of_cons hmore hcomma),
                  listElements_last ht (head_ne_of_cons hmore' hcomma)]
                exact hspaced.afterFirst t

theorem parallel_closingBracket (h : Closes ts us) :
    Parallel (closingBracket stop ts) (closingBracket stop us) := by
  cases h with
  | nil => exact ⟨rfl, .nil⟩
  | @mark u us ends behind =>
      have hu : u.kind ≠ .rightBracket := by
        rw [ends.1]
        decide
      rw [closingBracket, closingBracket, if_neg hu]
      exact (Closes.mark ends behind).nothing.report _ _ _ _
  | cons t behind =>
      rw [closingBracket, closingBracket]
      split
      · exact behind.nothing.withLeaf t
      · exact (Closes.cons t behind).nothing.report _ _ _ _

theorem parallel_listBody (h : Closes ts us) :
    Parallel (listBody stop ts) (listBody stop us) := by
  have hspace := parallel_trivia h
  have helements : Parallel ((trivia ts).append (listElements stop (trivia ts).rest))
      ((trivia us).append (listElements stop (trivia us).rest)) :=
    hspace.append (parallel_listElements hspace.rest)
  exact helements.append (parallel_closingBracket helements.rest)

theorem parallel_value (first : Token) (h : Closes ts us) :
    Parallel (value stop first ts) (value stop first us) := by
  by_cases hfirst : first.kind = .leftBracket
  · rw [value_list hfirst, value_list hfirst]
    exact (parallel_listBody h).wrapFrom .listValue first
  · rw [value_scalar hfirst, value_scalar hfirst]
    exact parallel_scalar first h

theorem nextKind?_colon (h : Closes ts us) :
    nextKind? ts = some .colon ↔ nextKind? us = some .colon := by
  induction h with
  | nil => rfl
  | @mark u us ends behind =>
      have hu : nextKind? (u :: us) = some .dedent := by
        rw [nextKind?, List.find?_cons_of_pos (by rw [ends.1]; rfl), Option.map_some, ends.1]
      rw [hu]
      exact iff_of_false (by decide) (by decide)
  | @cons t ts us behind ih =>
      unfold nextKind? at ih ⊢
      rw [List.find?_cons, List.find?_cons]
      split
      · rfl
      · exact ih

/-! ## Rules for properties and blocks -/

/-- The rules read these tokens in parallel with what closes them. -/
structure ParallelAt (stop : Nat) (ts : List Token) : Prop where
  valueEnd : ∀ us, Closes ts us →
    Parallel (valueEnd stop .never ts).toReading (valueEnd stop .never us).toReading
  propertyValue : ∀ us, Closes ts us →
    Parallel (propertyValue stop .never ts).toReading (propertyValue stop .never us).toReading
  property : ∀ us key, Closes ts us →
    Parallel (property stop .never key ts).toReading (property stop .never key us).toReading
  itemProperties : ∀ us, Closes ts us →
    Parallel (itemProperties stop .never ts).toReading (itemProperties stop .never us).toReading
  listItem : ∀ us dash, Closes ts us →
    Parallel (listItem stop .never dash ts).toReading (listItem stop .never dash us).toReading
  members : ∀ us, Closes ts us →
    Parallel (members stop .never ts).toReading (members stop .never us).toReading

namespace ParallelAt

variable (ih : ∀ shorter, shorter.length < ts.length → ParallelAt stop shorter)
include ih

theorem valueEnd_of (h : Closes ts us) :
    Parallel (Grammar.valueEnd stop .never ts).toReading
      (Grammar.valueEnd stop .never us).toReading := by
  have hspace := parallel_trivia h
  rcases hspace.cases with ⟨hnil, hends⟩ | ⟨t, more, more', hmore, hmore', hbehind⟩
  · rw [valueEnd_nil hnil]
    cases hleft : (trivia us).rest with
    | nil =>
        rw [valueEnd_nil hleft]
        exact hspace
    | cons u left =>
        have hu : u.kind = .dedent := hends.head? u (by rw [hleft]; rfl)
        rw [valueEnd_cons hleft, hu]
        exact hspace
  · rw [valueEnd_cons hmore, valueEnd_cons hmore']
    split
    · exact hspace.followedBy hmore hmore' (hbehind.nothing.withLeaf t)
    · split
      · exact hspace
      · split
        · have hblock := (ih more (length_lt_of_rest hmore)).members _ hbehind
          exact hspace.followedBy hmore hmore'
            ((((hblock.wrapFrom .block t).wrap .error).afterFirst t).report _ _ _ _)
        · exact hspace.followedBy hmore hmore' (parallel_recoverLine _ (.cons t hbehind))

/-- A value and the end of its line. -/
theorem line (hts : tokens.length < ts.length) (t : Token) (h : Closes tokens us) :
    Parallel ((value stop t tokens).append
        (Grammar.valueEnd stop .never (value stop t tokens).rest).toReading)
      ((value stop t us).append
        (Grammar.valueEnd stop .never (value stop t us).rest).toReading) := by
  have hvalue : Parallel (value stop t tokens) (value stop t us) := parallel_value t h
  have hle := (value stop t tokens).rest_length_le
  exact hvalue.append ((ih _ (by omega)).valueEnd _ hvalue.rest)

theorem propertyValue_of (h : Closes ts us) :
    Parallel (Grammar.propertyValue stop .never ts).toReading
      (Grammar.propertyValue stop .never us).toReading := by
  have hspace := parallel_trivia h
  rcases hspace.cases with ⟨hnil, hends⟩ | ⟨t, more, more', hmore, hmore', hbehind⟩
  · rw [propertyValue_nil hnil]
    cases hleft : (trivia us).rest with
    | nil =>
        rw [propertyValue_nil hleft]
        exact hspace
    | cons u left =>
        have hu : u.kind = .dedent := hends.head? u (by rw [hleft]; rfl)
        rw [hleft] at hends
        rw [propertyValue_inline hleft (by rw [hu]; decide), hu]
        exact hspace.atEnd hnil hleft (parallel_recoverLine_mark _ hends)
  · have hlt := length_lt_of_rest hmore
    by_cases ht : t.kind = .newline
    · have hlines := parallel_blank hbehind
      rcases hlines.cases with ⟨hnil, hends⟩ | ⟨first, block, block', hfirst, hfirst', hrest⟩
      · rw [propertyValue_newline hmore ht (head_ne_of_nil hnil),
          propertyValue_newline hmore' ht (hends.head_ne (by decide))]
        exact hspace.followedBy hmore hmore' (hlines.withLeaf t)
      · by_cases hindent : first.kind = .indent
        · have hlt' := length_lt_of_rest hfirst
          have hblock := (ih block (by omega)).members _ hrest
          rw [propertyValue_block hmore ht hfirst hindent,
            propertyValue_block hmore' ht hfirst' hindent]
          exact hspace.followedBy hmore hmore' ((hlines.followedBy hfirst hfirst'
            ((hblock.wrapFrom .block first).afterFirst first)).withLeaf t)
        · rw [propertyValue_newline hmore ht (head_ne_of_cons hfirst hindent),
            propertyValue_newline hmore' ht (head_ne_of_cons hfirst' hindent)]
          exact hspace.followedBy hmore hmore' (hlines.withLeaf t)
    · rw [propertyValue_inline hmore ht, propertyValue_inline hmore' ht]
      split
      · exact hspace.followedBy hmore hmore' ((line ih hlt t hbehind).afterFirst t)
      · exact hspace.followedBy hmore hmore' (parallel_recoverLine _ (.cons t hbehind))

theorem property_of (key : Token) (h : Closes ts us) :
    Parallel (Grammar.property stop .never key ts).toReading
      (Grammar.property stop .never key us).toReading := by
  have hspace := parallel_trivia h
  rcases hspace.cases with ⟨hnil, hends⟩ | ⟨t, more, more', hmore, hmore', hbehind⟩
  · rw [property_other key hnil (head_ne_of_nil rfl),
      property_other key rfl (hends.head_ne (by decide))]
    exact (hspace.followedBy hnil rfl (parallel_recoverLine _ hends)).wrapFrom .property key
  · by_cases ht : t.kind = .colon
    · have hvalue := (ih more (length_lt_of_rest hmore)).propertyValue _ hbehind
      rw [property_colon key hmore ht, property_colon key hmore' ht]
      exact (hspace.followedBy hmore hmore' (hvalue.withLeaf t)).wrapFrom .property key
    · rw [property_other key hmore (head_ne_of_cons rfl ht),
        property_other key hmore' (head_ne_of_cons rfl ht)]
      exact (hspace.followedBy hmore hmore'
        (parallel_recoverLine _ (.cons t hbehind))).wrapFrom .property key

theorem properties (hts : tokens.length < ts.length) (key : Token) (h : Closes tokens us) :
    Parallel (Grammar.properties stop key tokens) (Grammar.properties stop key us) := by
  have hfirst := (ih tokens hts).property _ key h
  have hle := (Grammar.property stop .never key tokens).rest_length_le
  exact hfirst.append ((ih _ (by omega)).itemProperties _ hfirst.rest)

theorem itemProperties_of (h : Closes ts us) :
    Parallel (Grammar.itemProperties stop .never ts).toReading
      (Grammar.itemProperties stop .never us).toReading := by
  have hspace := parallel_blank h
  rcases hspace.cases with ⟨hnil, hends⟩ | ⟨t, more, more', hmore, hmore', hbehind⟩
  · rw [itemProperties_other (head_ne_of_nil hnil),
      itemProperties_other (hends.head_ne (by decide))]
    exact hspace
  · by_cases ht : t.kind = .ident
    · rw [itemProperties_ident hmore ht, itemProperties_ident hmore' ht]
      exact hspace.followedBy hmore hmore'
        ((properties ih (length_lt_of_rest hmore) t hbehind).afterFirst t)
    · rw [itemProperties_other (head_ne_of_cons hmore ht),
        itemProperties_other (head_ne_of_cons hmore' ht)]
      exact hspace

theorem listItem_of (dash : Token) (h : Closes ts us) :
    Parallel (Grammar.listItem stop .never dash ts).toReading
      (Grammar.listItem stop .never dash us).toReading := by
  have hspace := parallel_trivia h
  rcases hspace.cases with ⟨hnil, hends⟩ | ⟨t, more, more', hmore, hmore', hbehind⟩
  · rw [listItem_nil dash hnil]
    cases hleft : (trivia us).rest with
    | nil =>
        rw [listItem_nil dash hleft]
        exact hspace.wrapFrom .listItem dash
    | cons u left =>
        have hu : u.kind = .dedent := hends.head? u (by rw [hleft]; rfl)
        rw [hleft] at hends
        rw [listItem_cons dash hleft, hu]
        exact (hspace.atEnd hnil hleft (parallel_recoverLine_mark _ hends)).wrapFrom .listItem dash
  · have hlt := length_lt_of_rest hmore
    rw [listItem_cons dash hmore, listItem_cons dash hmore']
    refine (hspace.followedBy hmore hmore' ?_).wrapFrom .listItem dash
    have hcolon := nextKind?_colon hbehind
    by_cases hkey : t.kind = .ident ∧ nextKind? more = some .colon
    · rw [if_pos hkey, if_pos (hkey.imp_right hcolon.mp)]
      exact (properties ih hlt t hbehind).afterFirst t
    · have hother : ¬(t.kind = .ident ∧ nextKind? more' = some .colon) :=
        fun hkey' => hkey (hkey'.imp_right hcolon.mpr)
      rw [if_neg hkey, if_neg hother]
      split
      · exact (line ih hlt t hbehind).afterFirst t
      · split
        · exact (hbehind.nothing.withLeaf t).report _ _ _ _
        · exact parallel_recoverLine _ (.cons t hbehind)

theorem member (hts : tokens.length < ts.length) (t : Token) (h : Closes tokens us) :
    Parallel (Grammar.member stop t tokens) (Grammar.member stop t us) := by
  have hrules := ih tokens hts
  rw [Grammar.member, Grammar.member]
  split
  · exact hrules.property _ t h
  · split
    · exact hrules.listItem _ t h
    · split
      · exact (((hrules.members _ h).wrapFrom .block t).wrap .error).report _ _ _ _
      · exact (parallel_errorFrom t h).report _ _ _ _

theorem members_of (h : Closes ts us) :
    Parallel (Grammar.members stop .never ts).toReading
      (Grammar.members stop .never us).toReading := by
  have hspace := parallel_blank h
  rcases hspace.cases with ⟨hnil, hends⟩ | ⟨t, more, more', hmore, hmore', hbehind⟩
  · rw [members_nil hnil]
    generalize hleft : (blank us).rest = left at hends
    cases hends with
    | nil =>
        rw [members_nil hleft]
        exact hspace
    | @mark u left ends behind =>
        have hleaf : Parallel (.nothing []) ((Reading.nothing left).withLeaf u) := by
          refine ⟨?_, behind⟩
          rw [Reading.withLeaf, Tree.allPruned_cons, Tree.pruned, if_pos ends]
          rfl
        rw [members_dedent hleft ends.1]
        exact hspace.atEnd hnil hleft hleaf
  · by_cases ht : t.kind = .dedent
    · rw [members_dedent hmore ht, members_dedent hmore' ht]
      exact hspace.followedBy hmore hmore' (hbehind.nothing.withLeaf t)
    · have hlt := length_lt_of_rest hmore
      have hfirst := member ih hlt t hbehind
      have hle := (Grammar.member stop t more).rest_length_le
      rw [members_cons hmore ht, members_cons hmore' ht]
      exact hspace.followedBy hmore hmore'
        ((hfirst.append ((ih _ (by omega)).members _ hfirst.rest)).afterFirst t)

end ParallelAt

theorem parallelAt (stop : Nat) (ts : List Token) : ParallelAt stop ts := by
  induction ts using rules_induction with
  | step ts ih =>
      exact ⟨fun _ => ParallelAt.valueEnd_of ih, fun _ => ParallelAt.propertyValue_of ih,
        fun _ => ParallelAt.property_of ih, fun _ => ParallelAt.itemProperties_of ih,
        fun _ => ParallelAt.listItem_of ih, fun _ => ParallelAt.members_of ih⟩

/-! ## Files -/

theorem parallel_fileMember (roots : Nat) (t : Token) (h : Closes ts us) :
    Parallel (fileMember stop roots t ts) (fileMember stop roots t us) := by
  have hrules := parallelAt stop ts
  rw [fileMember, fileMember]
  split
  · split
    · exact (hrules.property _ t h).report _ _ _ _
    · exact hrules.property _ t h
  · split
    · exact (((hrules.members _ h).wrapFrom .block t).wrap .error).report _ _ _ _
    · split
      · exact ⟨rfl, h⟩
      · exact (parallel_errorFrom t h).report _ _ _ _

theorem fileMember_dedent (roots : Nat) (h : t.kind = .dedent) :
    fileMember stop roots t ts = ⟨[.node .error [], .leaf t],
      [⟨"expected a property, found " ++ t.kind.name, t.range⟩], ts, Nat.le_refl _⟩ := by
  rw [fileMember, if_neg (by rw [h]; decide), if_neg (by rw [h]; decide), if_pos h]
  rfl

/-- A mark at the end of a file is a member that does not show. -/
theorem parallel_fileMember_mark (roots : Nat) (ends : t.EndsBlock)
    (hothers : ∀ roots', Parallel (.nothing []) (fileMembers stop .never roots' us).toReading) :
    Parallel (.nothing []) (((fileMember stop roots t us).append
      (fileMembers stop .never (if t.kind = .ident then roots + 1 else roots)
        (fileMember stop roots t us).rest).toReading).behind t) := by
  have htrees : ∀ trees, Tree.allPruned (.node .error [] :: .leaf t :: trees) =
      Tree.allPruned trees := by
    intro trees
    have hleaf : Tree.pruned (.leaf t) = [] := if_pos ends
    rw [Tree.allPruned_cons, Tree.allPruned_cons, hleaf]
    rfl
  rw [fileMember_dedent roots ends.1]
  exact ⟨(hothers _).trees.trans (htrees _).symm, (hothers _).rest⟩

theorem parallel_fileMembers_marks (h : Closes [] us) (roots : Nat) :
    Parallel (.nothing []) (fileMembers stop .never roots us).toReading := by
  induction us generalizing roots with
  | nil =>
      rw [fileMembers_nil roots rfl]
      exact Closes.nil.nothing
  | cons u us ih =>
      have hspace : Parallel (.nothing []) (blank (u :: us)) := parallel_blank h
      cases h with
      | mark ends behind =>
          have hblank : blank (u :: us) = .nothing (u :: us) :=
            if_neg (by rw [ends.1]; decide)
          have hrest : (blank (u :: us)).rest = u :: us := congrArg Reading.rest hblank
          rw [fileMembers_cons roots hrest]
          exact hspace.atEnd rfl hrest (parallel_fileMember_mark roots ends (ih behind))

/-- The members of a file, with marks at its end or without them. -/
theorem parallel_fileMembers (roots : Nat) (h : Closes ts us) :
    Parallel (fileMembers stop .never roots ts).toReading
      (fileMembers stop .never roots us).toReading := by
  induction ts using rules_induction generalizing us roots with
  | step ts ih =>
      have hspace := parallel_blank h
      rcases hspace.cases with ⟨hnil, hends⟩ | ⟨t, more, more', hmore, hmore', hbehind⟩
      · rw [fileMembers_nil roots hnil]
        generalize hleft : (blank us).rest = left at hends
        cases hends with
        | nil =>
            rw [fileMembers_nil roots hleft]
            exact hspace
        | @mark u left ends behind =>
            rw [fileMembers_cons roots hleft]
            exact hspace.atEnd hnil hleft (parallel_fileMember_mark roots ends
              (parallel_fileMembers_marks behind))
      · have hlt := length_lt_of_rest hmore
        have hfirst : Parallel (fileMember stop roots t more) (fileMember stop roots t more') :=
          parallel_fileMember roots t hbehind
        have hle := (fileMember stop roots t more).rest_length_le
        rw [fileMembers_cons roots hmore, fileMembers_cons roots hmore']
        exact hspace.followedBy hmore hmore'
          ((hfirst.append (ih _ (by omega) _ hfirst.rest)).afterFirst t)

end Grammar
end ModelWorkspace
