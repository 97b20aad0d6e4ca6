import ModelWorkspace.Proofs.Token.DottedNames
import ModelWorkspace.Proofs.Tree.Rules

/-!
# Reading what is cut short

Tokens are read side by side with the same tokens up to one word, of which there may be another
beginning, and nothing behind it (`Cuts`).  Up to the word both readings are the same.  If the word
is the first of a scalar that an outline sees, then the other reading has a scalar at the same
place, and has nothing behind it; in all nodes around it the children in front are the same
(`Tree.CutShort`).  Where the word is something else, a key or what is set aside, the other reading
may be whatever it is: nobody asks for what is referred to there.
-/

namespace ModelWorkspace
namespace Tree

mutual

/-- The first tokens of the scalars in a tree that an outline sees. -/
def firsts : Tree → List Token
  | .leaf _ => []
  | .node kind children =>
    if kind = .error then []
    else if kind = .scalar then (allLeaves children).head?.toList
    else allFirsts children
termination_by structural t => t

/-- The first tokens of the scalars in several trees. -/
def allFirsts : List Tree → List Token
  | [] => []
  | t :: ts => t.firsts ++ allFirsts ts
termination_by structural ts => ts

end

theorem allFirsts_append (ts us : List Tree) :
    allFirsts (ts ++ us) = allFirsts ts ++ allFirsts us := by
  induction ts with
  | nil => rfl
  | cons t ts ih => rw [List.cons_append, allFirsts, ih, allFirsts, List.append_assoc]

theorem allFirsts_singleton (t : Tree) : allFirsts [t] = t.firsts := List.append_nil _

theorem firsts_node_subset {kind : SyntaxKind} (h : kind ≠ .scalar) (ts : List Tree) :
    (Tree.node kind ts).firsts ⊆ allFirsts ts := by
  rw [firsts, if_neg h]
  split
  · exact List.nil_subset _
  · exact List.Subset.refl _

theorem allLeaves_map_leaf (ts : List Token) : allLeaves (ts.map .leaf) = ts := by
  induction ts with
  | nil => rfl
  | cons t ts ih => exact congrArg (t :: ·) ih

theorem firsts_scalar (ts : List Tree) :
    (Tree.node .scalar ts).firsts = (allLeaves ts).head?.toList := rfl

end Tree

open ModelWorkspace.Tree (allFirsts allFirsts_append allFirsts_singleton allLeaves_map_leaf)

/-- A word, and the dotted name that stands in its place at the end of a text which is cut short
there. -/
structure CutPoint where
  word : Token
  first : Token
  tail : List Token
  word_kind : word.kind = .ident
  first_kind : first.kind = .ident
  isNameTail : IsNameTail tail

/-- A scalar that begins with the word, and the one that ends a tree which is cut short; and nodes
around them. -/
inductive Tree.CutShort (c : CutPoint) : Tree → Tree → Prop
  | scalar {children children' : List Tree} (begins : (allLeaves children).head? = some c.word)
      (ends : allLeaves children' = c.first :: c.tail) :
      CutShort c (.node .scalar children) (.node .scalar children')
  | node {kind : SyntaxKind} (front behind : List Tree) {t t' : Tree} (visible : kind ≠ .error)
      (inner : kind ≠ .scalar) (cut : CutShort c t t') :
      CutShort c (.node kind (front ++ t :: behind)) (.node kind (front ++ [t']))

/-- No scalar in a reading begins with a token, and it is not left either. -/
structure Reading.Lacks {tokens : List Token} (r : Reading tokens) (word : Token) : Prop where
  rest : word ∉ r.rest
  firsts : word ∉ allFirsts r.trees

namespace Reading

variable {tokens left : List Token} {r : Reading tokens} {word : Token}

theorem lacks_nothing (h : word ∉ tokens) : (Reading.nothing tokens).Lacks word :=
  ⟨h, List.not_mem_nil⟩

theorem Lacks.append (h : r.Lacks word) {next : Reading r.rest} (hnext : next.Lacks word) :
    (r.append next).Lacks word := by
  refine ⟨hnext.rest, fun hmem => ?_⟩
  rw [Reading.append, allFirsts_append] at hmem
  exact (List.mem_append.mp hmem).elim h.firsts hnext.firsts

theorem Lacks.followedBy (h : r.Lacks word) (hleft : r.rest = left) {next : Reading left}
    (hnext : next.Lacks word) : (r.followedBy hleft next).Lacks word := by
  subst hleft
  exact h.append hnext

theorem Lacks.withLeaf (h : r.Lacks word) (t : Token) : (r.withLeaf t).Lacks word :=
  ⟨h.rest, h.firsts⟩

theorem Lacks.afterFirst (h : r.Lacks word) (t : Token) : (r.behind t).Lacks word :=
  ⟨h.rest, h.firsts⟩

theorem Lacks.report (h : r.Lacks word) (message : String) (range : TextRange) :
    (r.report message range).Lacks word :=
  ⟨h.rest, h.firsts⟩

theorem Lacks.wrapFrom (h : r.Lacks word) {kind : SyntaxKind} (hkind : kind ≠ .scalar)
    (t : Token) : (r.wrapFrom kind t).Lacks word := by
  refine ⟨h.rest, fun hmem => h.firsts ?_⟩
  rw [Reading.wrapFrom, allFirsts_singleton] at hmem
  exact Tree.firsts_node_subset hkind (.leaf t :: r.trees) hmem

/-- What is set aside has no scalar that is seen. -/
theorem lacks_error (hrest : word ∉ r.rest) (h : ∃ children, r.trees = [.node .error children]) :
    r.Lacks word := by
  obtain ⟨children, hset⟩ := h
  refine ⟨hrest, ?_⟩
  rw [hset]
  exact List.not_mem_nil

end Reading

namespace Grammar

/-- The second list is cut short at the word, which the first one holds once. -/
inductive Cuts (c : CutPoint) : List Token → List Token → Prop
  | here {behind : List Token} (once : c.word ∉ behind) :
      Cuts c (c.word :: behind) (c.first :: c.tail)
  | cons (t : Token) {ts us : List Token} (other : t ≠ c.word) (behind : Cuts c ts us) :
      Cuts c (t :: ts) (t :: us)

/-- Neither side has reached the word. -/
structure InFront (c : CutPoint) {tokens tokens' : List Token} (r : Reading tokens)
    (r' : Reading tokens') : Prop where
  trees : r.trees = r'.trees
  firsts : c.word ∉ allFirsts r.trees
  rest : Cuts c r.rest r'.rest

/-- A reading, and the same where the tokens are cut short: the word is left to both, or it begins
no scalar, or the second side ends with the scalar that it begins. -/
inductive CutShort (c : CutPoint) {tokens tokens' : List Token} (r : Reading tokens)
    (r' : Reading tokens') : Prop
  | same (inFront : InFront c r r')
  | missed (lacks : r.Lacks c.word)
  | reached (front behind : List Tree) {t t' : Tree} (cut : Tree.CutShort c t t')
      (trees : r.trees = front ++ t :: behind) (trees' : r'.trees = front ++ [t'])
      (past : c.word ∉ r.rest) (ended : r'.rest = [])

variable {c : CutPoint} {stop stop' : Nat} {tokens tokens' ts us left left' : List Token}
  {t t' : Token}

namespace Cuts

theorem kind_eq (h : Cuts c (t :: ts) (t' :: us)) : t'.kind = t.kind := by
  cases h with
  | here => rw [c.first_kind, c.word_kind]
  | cons => rfl

theorem exists_cons (h : Cuts c ts us) :
    ∃ t t' more more', ts = t :: more ∧ us = t' :: more' ∧ Cuts c (t :: more) (t' :: more') := by
  have hcuts := h
  cases h with
  | here => exact ⟨_, _, _, _, rfl, rfl, hcuts⟩
  | cons => exact ⟨_, _, _, _, rfl, rfl, hcuts⟩

/-- A token of another kind than that of words is on both sides. -/
theorem of_kind_ne (h : Cuts c (t :: ts) (t' :: us)) (ht : t.kind ≠ .ident) :
    t' = t ∧ Cuts c ts us := by
  cases h with
  | here => exact absurd c.word_kind ht
  | cons _ _ behind => exact ⟨rfl, behind⟩

end Cuts

/-! ## Rules that lack the word -/

section Lacking

variable {r : Reading tokens} {word : Token}

/-- What is left, and what scalars begin with, are tokens that were given; and a value can begin
with the latter. -/
theorem closed_firsts (stop : Nat) :
    Closed stop fun trees _ rest all =>
      rest ⊆ all ∧ ∀ w ∈ allFirsts trees, w ∈ all ∧ beginsValue w.kind = true where
  start := fun tokens => ⟨List.Subset.refl _, List.forall_mem_nil _⟩
  leaf := fun h t => ⟨List.subset_cons_of_subset t h.1, fun w hw =>
    (h.2 w hw).imp_left (List.mem_cons_of_mem t)⟩
  join := by
    intro trees errors rest all others later left h hothers
    rw [allFirsts_append]
    exact ⟨List.Subset.trans hothers.1 h.1, List.forall_mem_append.mpr
      ⟨h.2, fun w hw => (hothers.2 w hw).imp_left (h.1 ·)⟩⟩
  node := by
    intro trees errors rest all kind h hkind
    rw [allFirsts_singleton]
    exact ⟨h.1, fun w hw => h.2 w (Tree.firsts_node_subset hkind trees hw)⟩
  scalar := by
    intro trees errors rest all first h hbegins hfirst
    rw [allFirsts_singleton, Tree.firsts_scalar, hfirst]
    exact ⟨h.1, List.forall_mem_singleton.mpr ⟨List.mem_cons_self, hbegins⟩⟩
  report := fun h _ _ _ => h

theorem lacks_of_meets {all : List Token}
    (h : r.Meets (fun trees _ rest all =>
      rest ⊆ all ∧ ∀ w ∈ allFirsts trees, w ∈ all ∧ beginsValue w.kind = true) all)
    (hword : word ∉ all) : r.Lacks word :=
  ⟨fun hmem => hword (h.1 hmem), fun hmem => hword (h.2 word hmem).1⟩

theorem lacks_trivia (h : word ∉ ts) : (trivia ts).Lacks word :=
  lacks_of_meets ((closed_firsts 0).trivia ts) h

theorem lacks_lineEnd (h : word ∉ ts) : (lineEnd ts).Lacks word :=
  lacks_of_meets ((closed_firsts 0).lineEnd ts) h

theorem lacks_nameTail (h : word ∉ ts) : (nameTail stop ts).Lacks word :=
  lacks_of_meets ((closed_firsts stop).nameTail ts) h

theorem lacks_listElements (h : word ∉ ts) : (listElements stop ts).Lacks word :=
  lacks_of_meets ((closed_firsts stop).listElements ts) h

theorem lacks_closingBracket (h : word ∉ ts) : (closingBracket stop ts).Lacks word :=
  lacks_of_meets ((closed_firsts stop).closingBracket ts) h

theorem lacks_recoverLine (message : String) (h : word ∉ ts) :
    (recoverLine stop message ts).Lacks word :=
  lacks_of_meets ((closed_firsts stop).recoverLine message ts) h

theorem lacks_valueEnd (h : word ∉ ts) : (valueEnd stop .never ts).toReading.Lacks word :=
  lacks_of_meets (((closed_firsts stop).blocks (ts.length + 1)).valueEnd .never ts (by omega)) h

theorem lacks_propertyValue (h : word ∉ ts) :
    (propertyValue stop .never ts).toReading.Lacks word :=
  lacks_of_meets
    (((closed_firsts stop).blocks (ts.length + 1)).propertyValue .never ts (by omega)) h

theorem lacks_itemProperties (h : word ∉ ts) :
    (itemProperties stop .never ts).toReading.Lacks word :=
  lacks_of_meets
    (((closed_firsts stop).blocks (ts.length + 1)).itemProperties .never ts (by omega)) h

theorem lacks_members (h : word ∉ ts) : (members stop .never ts).toReading.Lacks word :=
  lacks_of_meets (((closed_firsts stop).blocks (ts.length + 1)).members .never ts (by omega)) h

theorem lacks_fileMembers (roots : Nat) (h : word ∉ ts) :
    (fileMembers stop .never roots ts).toReading.Lacks word :=
  lacks_of_meets ((closed_firsts stop).fileMembers .never roots ts).1 h

/-- A key begins no scalar. -/
theorem lacks_property (key : Token) (h : word ∉ ts) :
    (property stop .never key ts).toReading.Lacks word := by
  have hspace : (trivia ts).Lacks word := lacks_trivia h
  rcases next_cases .colon (trivia ts).rest with ⟨t, more, hmore, ht⟩ | hother
  · have hrest := hspace.rest
    rw [hmore] at hrest
    have hvalue : (propertyValue stop .never more).toReading.Lacks word :=
      lacks_propertyValue fun hmem => hrest (List.mem_cons_of_mem t hmem)
    rw [property_colon key hmore ht]
    exact (hspace.followedBy hmore (hvalue.withLeaf t)).wrapFrom (by decide) key
  · rw [property_other key rfl hother]
    exact (hspace.followedBy rfl (lacks_recoverLine _ hspace.rest)).wrapFrom (by decide) key

theorem lacks_properties (key : Token) (h : word ∉ ts) : (properties stop key ts).Lacks word :=
  have hfirst : (property stop .never key ts).toReading.Lacks word := lacks_property key h
  hfirst.append (lacks_itemProperties hfirst.rest)

end Lacking

/-! ## Readings side by side -/

section Combinators

variable {r : Reading tokens} {r' : Reading tokens'}

theorem Cuts.nothing (h : Cuts c ts us) : InFront c (.nothing ts) (.nothing us) :=
  ⟨rfl, List.not_mem_nil, h⟩

theorem InFront.withLeaf (h : InFront c r r') (t : Token) :
    InFront c (r.withLeaf t) (r'.withLeaf t) :=
  ⟨congrArg (_ :: ·) h.trees, h.firsts, h.rest⟩

theorem InFront.followedBy (h : InFront c r r') (hleft : r.rest = left) (hleft' : r'.rest = left')
    {b : Reading left} {b' : Reading left'} (hb : CutShort c b b') :
    CutShort c (r.followedBy hleft b) (r'.followedBy hleft' b') := by
  subst hleft hleft'
  cases hb with
  | same inFront =>
      refine .same ⟨congrArg₂ (· ++ ·) h.trees inFront.trees, fun hmem => ?_, inFront.rest⟩
      rw [Reading.followedBy, allFirsts_append] at hmem
      exact (List.mem_append.mp hmem).elim h.firsts inFront.firsts
  | missed lacks =>
      refine .missed ⟨lacks.rest, fun hmem => ?_⟩
      rw [Reading.followedBy, allFirsts_append] at hmem
      exact (List.mem_append.mp hmem).elim h.firsts lacks.firsts
  | reached front behind cut trees trees' past ended =>
      refine .reached (r.trees ++ front) behind cut ?_ ?_ past ended
      · rw [Reading.followedBy, trees, List.append_assoc]
      · rw [Reading.followedBy, trees', h.trees, List.append_assoc]

theorem CutShort.withLeaf (h : CutShort c r r') (t : Token) :
    CutShort c (r.withLeaf t) (r'.withLeaf t) := by
  cases h with
  | same inFront => exact .same (inFront.withLeaf t)
  | missed lacks => exact .missed (lacks.withLeaf t)
  | reached front behind cut trees trees' past ended =>
      exact .reached (.leaf t :: front) behind cut (congrArg (Tree.leaf t :: ·) trees)
        (congrArg (Tree.leaf t :: ·) trees') past ended

theorem CutShort.afterFirst (h : CutShort c r r') (t t' : Token) :
    CutShort c (r.behind t) (r'.behind t') := by
  cases h with
  | same inFront => exact .same ⟨inFront.trees, inFront.firsts, inFront.rest⟩
  | missed lacks => exact .missed (lacks.afterFirst t)
  | reached front behind cut trees trees' past ended =>
      exact .reached front behind cut trees trees' past ended

theorem CutShort.report (h : CutShort c r r') (message message' : String)
    (range range' : TextRange) :
    CutShort c (r.report message range) (r'.report message' range') := by
  cases h with
  | same inFront => exact .same ⟨inFront.trees, inFront.firsts, inFront.rest⟩
  | missed lacks => exact .missed (lacks.report message range)
  | reached front behind cut trees trees' past ended =>
      exact .reached front behind cut trees trees' past ended

theorem CutShort.wrapFrom (h : CutShort c r r') {kind : SyntaxKind} (hkind : kind ≠ .scalar)
    (t : Token) : CutShort c (r.wrapFrom kind t) (r'.wrapFrom kind t) := by
  cases h with
  | same inFront =>
      refine .same ⟨?_, fun hmem => inFront.firsts ?_, inFront.rest⟩
      · rw [Reading.wrapFrom, Reading.wrapFrom, inFront.trees]
      · rw [Reading.wrapFrom, allFirsts_singleton] at hmem
        exact Tree.firsts_node_subset hkind (.leaf t :: r.trees) hmem
  | missed lacks => exact .missed (lacks.wrapFrom hkind t)
  | reached front behind cut trees trees' past ended =>
      by_cases hset : kind = .error
      · subst hset
        exact .missed (Reading.lacks_error past ⟨_, rfl⟩)
      · refine .reached [] [] (.node (.leaf t :: front) behind hset hkind cut) ?_ ?_ past ended
        · rw [Reading.wrapFrom, trees]
          rfl
        · rw [Reading.wrapFrom, trees']
          rfl

/-- What is set aside on one side is set aside on the other one. -/
theorem CutShort.setAside (h : CutShort c r r') : CutShort c (r.wrap .error) (r'.wrap .error) := by
  cases h with
  | same inFront =>
      refine .same ⟨?_, List.not_mem_nil, inFront.rest⟩
      rw [Reading.wrap, Reading.wrap, inFront.trees]
  | missed lacks => exact .missed (Reading.lacks_error lacks.rest ⟨_, rfl⟩)
  | reached _ _ _ _ _ past _ => exact .missed (Reading.lacks_error past ⟨_, rfl⟩)

/-- A rule that goes on where another one has stopped: it reads nothing behind the end of the
second side, and no word where there is none. -/
theorem CutShort.append (h : CutShort c r r') {b : Reading r.rest} {b' : Reading r'.rest}
    (hb : Cuts c r.rest r'.rest → CutShort c b b') (hlacks : c.word ∉ r.rest → b.Lacks c.word)
    (hended : r'.rest = [] → b'.trees = []) : CutShort c (r.append b) (r'.append b') := by
  cases h with
  | same inFront => exact inFront.followedBy rfl rfl (hb inFront.rest)
  | missed lacks => exact .missed (lacks.append (hlacks lacks.rest))
  | reached front behind cut trees trees' past ended =>
      -- the rule may read more behind the scalar on the first side, and nothing on the second
      refine .reached front (behind ++ b.trees) cut ?_ ?_ (hlacks past).rest ?_
      · rw [Reading.append, trees, List.append_assoc, List.cons_append]
      · rw [Reading.append, trees', hended ended, List.append_nil]
      · have hlength : r'.rest.length = 0 := congrArg List.length ended
        exact List.length_eq_zero_iff.mp (Nat.le_zero.mp (hlength ▸ b'.rest_length_le))

end Combinators

/-! ## Rules without blocks -/

theorem cutShort_skip (passes : SyntaxKind → Bool) (h : Cuts c ts us) :
    CutShort c (skip passes ts) (skip passes us) := by
  induction h with
  | here once =>
      -- a word that is passed over begins nothing
      rw [skip, skip, c.word_kind, c.first_kind]
      split
      · exact .missed (Reading.Lacks.withLeaf (lacks_of_meets ((closed_firsts 0).skip _ _) once) _)
      · exact .same (Cuts.here once).nothing
  | cons t other behind ih =>
      rw [skip, skip]
      split
      · exact ih.withLeaf t
      · exact .same (Cuts.cons t other behind).nothing

/-- What does not pass words does not reach the word. -/
theorem inFront_skip {passes : SyntaxKind → Bool} (hpasses : passes .ident = false)
    (h : Cuts c ts us) : InFront c (skip passes ts) (skip passes us) := by
  induction h with
  | here once =>
      rw [skip, skip, c.word_kind, c.first_kind, hpasses]
      exact (Cuts.here once).nothing
  | cons t other behind ih =>
      rw [skip, skip]
      split
      · exact ih.withLeaf t
      · exact (Cuts.cons t other behind).nothing

theorem inFront_trivia (h : Cuts c ts us) : InFront c (trivia ts) (trivia us) :=
  inFront_skip rfl h

theorem inFront_blank (h : Cuts c ts us) : InFront c (blank ts) (blank us) :=
  inFront_skip rfl h

theorem cutShort_lineEnd (h : Cuts c ts us) : CutShort c (lineEnd ts) (lineEnd us) := by
  cases h with
  | here once =>
      rw [lineEnd, lineEnd, c.word_kind, c.first_kind]
      exact .same (Cuts.here once).nothing
  | cons t other behind =>
      rw [lineEnd, lineEnd]
      split
      · exact .same (behind.nothing.withLeaf t)
      · exact .same (Cuts.cons t other behind).nothing

theorem cutShort_errorFrom (h : Cuts c (t :: ts) (t' :: us)) :
    CutShort c (errorFrom t ts) (errorFrom t' us) := by
  cases h with
  | here once =>
      have hlacks : (errorFrom c.word ts).Lacks c.word :=
        Reading.lacks_error (lacks_of_meets ((closed_firsts 0).skip _ ts) once).rest ⟨_, rfl⟩
      exact .missed hlacks
  | cons _ _ behind => exact (cutShort_skip _ behind).wrapFrom (by decide) t

theorem cutShort_recover (message : String) (h : Cuts c ts us) :
    CutShort c (recover stop message ts) (recover stop' message us) := by
  obtain ⟨t, t', more, more', rfl, rfl, hcuts⟩ := h.exists_cons
  rw [recover, recover]
  refine CutShort.report ?_ _ _ _ _
  rw [hcuts.kind_eq]
  split
  · exact (CutShort.same hcuts.nothing).setAside
  · split
    · rename_i hlayout
      obtain ⟨rfl, hbehind⟩ := hcuts.of_kind_ne fun hident => by
        rw [hident] at hlayout
        exact absurd hlayout (by decide)
      exact ((CutShort.same hbehind.nothing).wrapFrom (by decide) t').afterFirst t' t'
    · exact (cutShort_errorFrom hcuts).afterFirst t t'

theorem cutShort_recoverLine (message : String) (h : Cuts c ts us) :
    CutShort c (recoverLine stop message ts) (recoverLine stop' message us) := by
  refine (cutShort_recover message h).append cutShort_lineEnd lacks_lineEnd fun hended => ?_
  rw [hended]
  rfl

/-! ### Values -/

theorem nameTail_undotted (h : t.kind ≠ .dot) : nameTail stop (t :: ts) = .nothing (t :: ts) := by
  cases ts with
  | nil => rw [nameTail, if_neg h]
  | cons u us => rw [nameTail, if_neg h]

/-- The tail of a name is read to its end. -/
theorem nameTail_of_isNameTail (h : IsNameTail ts) :
    (nameTail stop ts).trees = ts.map .leaf ∧ (nameTail stop ts).rest = [] := by
  induction h with
  | nil => exact ⟨rfl, rfl⟩
  | cons separator segment behind ih =>
      rw [nameTail, if_pos separator, if_pos segment]
      exact ⟨congrArg (Tree.leaf _ :: Tree.leaf _ :: ·) ih.1, ih.2⟩

theorem nextKind?_of_isNameTail (h : IsNameTail ts) : nextKind? ts ≠ some .colon := by
  cases h with
  | nil => exact fun h => by cases h
  | cons separator _ _ =>
      rw [nextKind?, List.find?_cons_of_pos (by rw [separator]; rfl), Option.map_some, separator]
      decide

/-- A word that is a further segment of a name begins no scalar. -/
theorem inFront_or_lacks_nameTail (h : Cuts c ts us) :
    InFront c (nameTail stop ts) (nameTail stop' us) ∨ (nameTail stop ts).Lacks c.word := by
  fun_induction nameTail stop ts generalizing us with
  | case1 dot ident ts hdot hident ih =>
      cases h with
      | here => exact absurd (c.word_kind.symm.trans hdot) (by decide)
      | cons _ _ behind =>
          cases behind with
          | here once => exact .inr (((lacks_nameTail once).withLeaf _).withLeaf dot)
          | cons _ _ behind =>
              rw [nameTail, if_pos hdot, if_pos hident]
              exact (ih behind).imp (fun inFront => (inFront.withLeaf ident).withLeaf dot)
                fun lacks => (lacks.withLeaf ident).withLeaf dot
  | case2 dot ident ts hdot hident =>
      cases h with
      | here => exact absurd (c.word_kind.symm.trans hdot) (by decide)
      | cons _ _ behind =>
          cases behind with
          | here => exact absurd c.word_kind hident
          | cons _ other behind =>
              rw [nameTail, if_pos hdot, if_neg hident]
              have hleft := (Cuts.cons ident other behind).nothing.withLeaf dot
              exact .inl ⟨hleft.trees, hleft.firsts, hleft.rest⟩
  | case3 dot ident ts hdot =>
      obtain ⟨_, _, _, _, heq, rfl, hcuts⟩ := h.exists_cons
      obtain ⟨rfl, rfl⟩ := List.cons.inj heq
      rw [nameTail_undotted (by rw [hcuts.kind_eq]; exact hdot)]
      exact .inl hcuts.nothing
  | case4 dot hdot =>
      cases h with
      | here => exact absurd (c.word_kind.symm.trans hdot) (by decide)
      | cons _ _ behind => cases behind
  | case5 dot hdot =>
      obtain ⟨_, _, _, _, heq, rfl, hcuts⟩ := h.exists_cons
      obtain ⟨rfl, rfl⟩ := List.cons.inj heq
      rw [nameTail_undotted (by rw [hcuts.kind_eq]; exact hdot)]
      exact .inl hcuts.nothing
  | case6 => cases h

theorem cutShort_scalar (h : Cuts c (t :: ts) (t' :: us)) :
    CutShort c (scalar stop t ts) (scalar stop' t' us) := by
  cases h with
  | here once =>
      -- the second side is at an end behind the name
      obtain ⟨htrees, hrest⟩ : (nameTail stop' c.tail).trees = c.tail.map .leaf ∧
          (nameTail stop' c.tail).rest = [] := nameTail_of_isNameTail c.isNameTail
      rw [scalar, scalar, if_pos c.word_kind, if_pos c.first_kind]
      refine .reached [] [] (.scalar rfl ?_) rfl rfl (lacks_nameTail once).rest hrest
      show (c.first :: Tree.allLeaves (nameTail stop' c.tail).trees) ++ [] = _
      rw [htrees, allLeaves_map_leaf, List.append_nil]
  | cons _ other behind =>
      -- the scalar begins with another token
      have hother : ∀ {children : List Tree}, (Tree.allLeaves children).head? = some t →
          c.word ∉ allFirsts [.node .scalar children] := by
        intro children hfirst
        rw [allFirsts_singleton, Tree.firsts_scalar, hfirst]
        exact fun hmem => other (List.mem_singleton.mp hmem).symm
      rw [scalar, scalar]
      split
      · rcases @inFront_or_lacks_nameTail c stop stop' _ _ behind with inFront | lacks
        · refine .same ⟨?_, hother rfl, inFront.rest⟩
          rw [Reading.wrap, Reading.wrap, Reading.wrapFrom, Reading.wrapFrom, inFront.trees]
        · exact .missed ⟨lacks.rest, hother rfl⟩
      · exact .same ⟨rfl, hother rfl, behind⟩

theorem cutShort_listElement (h : Cuts c (t :: ts) (t' :: us)) :
    CutShort c (listElement stop t ts) (listElement stop' t' us) := by
  rw [listElement, listElement, h.kind_eq]
  split
  · exact cutShort_scalar h
  · rename_i hother
    obtain ⟨rfl, behind⟩ := h.of_kind_ne fun hident => by
      rw [hident] at hother
      exact hother rfl
    exact ((CutShort.same behind.nothing).wrapFrom (by decide) t').report _ _ _ _

theorem cutShort_spacedElement (h : Cuts c (t :: ts) (t' :: us)) :
    CutShort c (spacedElement stop t ts) (spacedElement stop' t' us) := by
  refine (cutShort_listElement h).append (fun hrest => .same (inFront_trivia hrest))
    lacks_trivia fun hended => ?_
  rw [hended]
  rfl

/-- What follows an element of a list: further ones behind a comma. -/
def moreElements (stop : Nat) : (tokens : List Token) → Reading tokens
  | [] => .nothing []
  | comma :: more =>
    if comma.kind = .comma then
      ((trivia more).append (listElements stop (trivia more).rest)).withLeaf comma
    else
      .nothing (comma :: more)

theorem listElements_cons (ht : ¬(t.kind = .rightBracket ∨ t.kind = .newline)) :
    listElements stop (t :: ts) = ((spacedElement stop t ts).append
      (moreElements stop (spacedElement stop t ts).rest)).behind t := by
  have hnothing : ∀ {spaced : Reading ts}, moreElements stop spaced.rest = .nothing spaced.rest →
      spaced = spaced.append (moreElements stop spaced.rest) := by
    intro spaced hmore
    rw [hmore]
    simp [Reading.append, Reading.nothing]
  have hfollowed : ∀ {spaced : Reading ts} {left} (h : spaced.rest = left) {next : Reading left},
      moreElements stop left = next →
        spaced.followedBy h next = spaced.append (moreElements stop spaced.rest) := by
    rintro ⟨trees, errors, rest, hle⟩ left rfl next rfl
    rfl
  rcases next_cases .comma (spacedElement stop t ts).rest with ⟨comma, more, hmore, hcomma⟩ | hlast
  · rw [listElements_comma ht hmore hcomma]
    exact congrArg (Reading.behind t) (hfollowed hmore (if_pos hcomma))
  · rw [listElements_last ht hlast]
    refine congrArg (Reading.behind t) (hnothing ?_)
    cases hleft : (spacedElement stop t ts).rest with
    | nil => rfl
    | cons comma more =>
        rw [hleft] at hlast
        exact if_neg (hlast comma rfl)

theorem lacks_moreElements {word : Token} (h : word ∉ ts) :
    (moreElements stop ts).Lacks word := by
  cases ts with
  | nil => exact Reading.lacks_nothing h
  | cons comma more =>
      rw [moreElements]
      split
      · have hspace : (trivia more).Lacks word :=
          lacks_trivia fun hmem => h (List.mem_cons_of_mem comma hmem)
        exact (hspace.append (lacks_listElements hspace.rest)).withLeaf comma
      · exact Reading.lacks_nothing h

theorem cutShort_listElements (h : Cuts c ts us) :
    CutShort c (listElements stop ts) (listElements stop' us) := by
  induction ts using rules_induction generalizing us with
  | step tokens ih =>
      obtain ⟨t, t', ts, us, rfl, rfl, hcuts⟩ := h.exists_cons
      have hkind := hcuts.kind_eq
      by_cases ht : t.kind = .rightBracket ∨ t.kind = .newline
      · rw [listElements_stop ht, listElements_stop (hkind ▸ ht)]
        exact .same hcuts.nothing
      · rw [listElements_cons ht, listElements_cons (hkind ▸ ht)]
        have hlength := (spacedElement stop t ts).rest_length_le
        refine ((cutShort_spacedElement hcuts).append (fun hrest => ?_) lacks_moreElements
          fun hended => ?_).afterFirst t t'
        · obtain ⟨comma, comma', more, more', hmore, hmore', hbehind⟩ := hrest.exists_cons
          rw [hmore] at hlength
          rw [hmore, hmore', moreElements, moreElements, hbehind.kind_eq]
          split
          · rename_i hcomma
            obtain ⟨rfl, hafter⟩ := hbehind.of_kind_ne (by rw [hcomma]; decide)
            have hspace := inFront_trivia hafter
            have hle := (trivia more).rest_length_le
            have hlater : (trivia more).rest.length < (t :: ts).length := by
              simp only [List.length_cons] at hlength ⊢
              omega
            exact (hspace.followedBy rfl rfl (ih _ hlater hspace.rest)).withLeaf comma'
          · exact .same hbehind.nothing
        · rw [hended]
          rfl

theorem cutShort_closingBracket (h : Cuts c ts us) :
    CutShort c (closingBracket stop ts) (closingBracket stop' us) := by
  obtain ⟨t, t', ts, us, rfl, rfl, hcuts⟩ := h.exists_cons
  rw [closingBracket, closingBracket, hcuts.kind_eq]
  split
  · rename_i hclosing
    obtain ⟨rfl, hbehind⟩ := hcuts.of_kind_ne (by rw [hclosing]; decide)
    exact .same (hbehind.nothing.withLeaf t')
  · exact (CutShort.same hcuts.nothing).report _ _ _ _

theorem cutShort_listBody (h : Cuts c ts us) :
    CutShort c (listBody stop ts) (listBody stop' us) := by
  have hspace := inFront_trivia h
  have helements : CutShort c ((trivia ts).append (listElements stop (trivia ts).rest))
      ((trivia us).append (listElements stop' (trivia us).rest)) :=
    hspace.followedBy rfl rfl (cutShort_listElements hspace.rest)
  refine helements.append cutShort_closingBracket lacks_closingBracket fun hended => ?_
  rw [hended]
  rfl

theorem cutShort_value (h : Cuts c (t :: ts) (t' :: us)) :
    CutShort c (value stop t ts) (value stop' t' us) := by
  by_cases hlist : t.kind = .leftBracket
  · obtain ⟨rfl, hbehind⟩ := h.of_kind_ne (by rw [hlist]; decide)
    rw [value_list hlist, value_list hlist]
    exact (cutShort_listBody hbehind).wrapFrom (by decide) t'
  · rw [value_scalar hlist, value_scalar (h.kind_eq ▸ hlist)]
    exact cutShort_scalar h

theorem Cuts.nextKind?_colon (h : Cuts c ts us) :
    nextKind? ts = some .colon ↔ nextKind? us = some .colon := by
  induction h with
  | here =>
      rw [nextKind?, nextKind?, List.find?_cons_of_pos (by rw [c.word_kind]; rfl),
        List.find?_cons_of_pos (by rw [c.first_kind]; rfl), Option.map_some, Option.map_some,
        c.word_kind, c.first_kind]
  | cons t other behind ih =>
      unfold nextKind? at ih ⊢
      rw [List.find?_cons, List.find?_cons]
      split
      · rfl
      · exact ih

/-! ## Rules for properties and blocks -/

/-- The rules read these tokens side by side with what they are cut short to. -/
structure CutsAt (c : CutPoint) (stop stop' : Nat) (ts : List Token) : Prop where
  valueEnd : ∀ us, Cuts c ts us →
    CutShort c (valueEnd stop .never ts).toReading (valueEnd stop' .never us).toReading
  propertyValue : ∀ us, Cuts c ts us →
    CutShort c (propertyValue stop .never ts).toReading (propertyValue stop' .never us).toReading
  property : ∀ us key, Cuts c ts us →
    CutShort c (property stop .never key ts).toReading (property stop' .never key us).toReading
  itemProperties : ∀ us, Cuts c ts us →
    CutShort c (itemProperties stop .never ts).toReading (itemProperties stop' .never us).toReading
  listItem : ∀ us dash, Cuts c ts us →
    CutShort c (listItem stop .never dash ts).toReading (listItem stop' .never dash us).toReading
  members : ∀ us, Cuts c ts us →
    CutShort c (members stop .never ts).toReading (members stop' .never us).toReading

namespace CutsAt

variable (ih : ∀ shorter, shorter.length < ts.length → CutsAt c stop stop' shorter)
include ih

theorem valueEnd_of (h : Cuts c ts us) :
    CutShort c (Grammar.valueEnd stop .never ts).toReading
      (Grammar.valueEnd stop' .never us).toReading := by
  have hspace := inFront_trivia h
  obtain ⟨t, t', more, more', hmore, hmore', hcuts⟩ := hspace.rest.exists_cons
  rw [valueEnd_cons hmore, valueEnd_cons hmore', hcuts.kind_eq]
  split
  · rename_i hkind
    obtain ⟨rfl, hbehind⟩ := hcuts.of_kind_ne (by rw [hkind]; decide)
    exact hspace.followedBy hmore hmore' (.same (hbehind.nothing.withLeaf t'))
  · split
    · exact .same hspace
    · split
      · rename_i hkind
        obtain ⟨rfl, hbehind⟩ := hcuts.of_kind_ne (by rw [hkind]; decide)
        have hblock := (ih more (length_lt_of_rest hmore)).members _ hbehind
        have hset := (hblock.wrapFrom (show SyntaxKind.block ≠ .scalar by decide) t').setAside
        exact hspace.followedBy hmore hmore' ((hset.afterFirst t' t').report _ _ _ _)
      · exact hspace.followedBy hmore hmore' (cutShort_recoverLine _ hcuts)

/-- A value and the end of its line. -/
theorem line (hts : tokens.length < ts.length) (h : Cuts c (t :: tokens) (t' :: us)) :
    CutShort c ((value stop t tokens).append
        (Grammar.valueEnd stop .never (value stop t tokens).rest).toReading)
      ((value stop' t' us).append
        (Grammar.valueEnd stop' .never (value stop' t' us).rest).toReading) := by
  have hle := (value stop t tokens).rest_length_le
  refine (cutShort_value h).append ((ih _ (by omega)).valueEnd _) lacks_valueEnd fun hended => ?_
  rw [hended, valueEnd_nil rfl]
  rfl

theorem propertyValue_of (h : Cuts c ts us) :
    CutShort c (Grammar.propertyValue stop .never ts).toReading
      (Grammar.propertyValue stop' .never us).toReading := by
  have hspace := inFront_trivia h
  obtain ⟨t, t', more, more', hmore, hmore', hcuts⟩ := hspace.rest.exists_cons
  have hlt := length_lt_of_rest hmore
  by_cases ht : t.kind = .newline
  · obtain ⟨rfl, hbehind⟩ := hcuts.of_kind_ne (by rw [ht]; decide)
    have hlines := inFront_blank hbehind
    obtain ⟨first, first', block, block', hfirst, hfirst', hrest⟩ := hlines.rest.exists_cons
    by_cases hindent : first.kind = .indent
    · obtain ⟨rfl, hinner⟩ := hrest.of_kind_ne (by rw [hindent]; decide)
      have hlt' := length_lt_of_rest hfirst
      have hblock := (ih block (by omega)).members _ hinner
      rw [propertyValue_block hmore ht hfirst hindent,
        propertyValue_block hmore' ht hfirst' hindent]
      exact hspace.followedBy hmore hmore' ((hlines.followedBy hfirst hfirst'
        ((hblock.wrapFrom (by decide) first').afterFirst first' first')).withLeaf t')
    · rw [propertyValue_newline hmore ht (head_ne_of_cons hfirst hindent),
        propertyValue_newline hmore' ht (head_ne_of_cons hfirst' (hrest.kind_eq ▸ hindent))]
      exact hspace.followedBy hmore hmore' (.same (hlines.withLeaf t'))
  · rw [propertyValue_inline hmore ht, propertyValue_inline hmore' (hcuts.kind_eq ▸ ht),
      hcuts.kind_eq]
    split
    · exact hspace.followedBy hmore hmore' ((line ih hlt hcuts).afterFirst t t')
    · exact hspace.followedBy hmore hmore' (cutShort_recoverLine _ hcuts)

theorem property_of (key : Token) (h : Cuts c ts us) :
    CutShort c (Grammar.property stop .never key ts).toReading
      (Grammar.property stop' .never key us).toReading := by
  have hspace := inFront_trivia h
  obtain ⟨t, t', more, more', hmore, hmore', hcuts⟩ := hspace.rest.exists_cons
  -- without a colon the rest of the line is set aside, and with it the word if it is there
  by_cases ht : t.kind = .colon
  · obtain ⟨rfl, hbehind⟩ := hcuts.of_kind_ne (by rw [ht]; decide)
    have hvalue := (ih more (length_lt_of_rest hmore)).propertyValue _ hbehind
    rw [property_colon key hmore ht, property_colon key hmore' ht]
    exact (hspace.followedBy hmore hmore' (hvalue.withLeaf t')).wrapFrom (by decide) key
  · rw [property_other key hmore (head_ne_of_cons rfl ht),
      property_other key hmore' (head_ne_of_cons rfl (hcuts.kind_eq ▸ ht))]
    exact (hspace.followedBy hmore hmore' (cutShort_recoverLine _ hcuts)).wrapFrom (by decide) key

/-- A property, unless its key is the word. -/
theorem keyed (hts : tokens.length < ts.length) (h : Cuts c (t :: tokens) (t' :: us)) :
    CutShort c (Grammar.property stop .never t tokens).toReading
      (Grammar.property stop' .never t' us).toReading := by
  cases h with
  | here once => exact .missed (lacks_property _ once)
  | cons _ _ behind => exact (ih tokens hts).property _ t behind

theorem properties (hts : tokens.length < ts.length) (h : Cuts c (t :: tokens) (t' :: us)) :
    CutShort c (Grammar.properties stop t tokens) (Grammar.properties stop' t' us) := by
  have hle := (Grammar.property stop .never t tokens).rest_length_le
  refine (keyed ih hts h).append ((ih _ (by omega)).itemProperties _) lacks_itemProperties
    fun hended => ?_
  rw [hended, itemProperties_other (head_ne_of_nil rfl)]
  rfl

theorem itemProperties_of (h : Cuts c ts us) :
    CutShort c (Grammar.itemProperties stop .never ts).toReading
      (Grammar.itemProperties stop' .never us).toReading := by
  have hspace := inFront_blank h
  obtain ⟨t, t', more, more', hmore, hmore', hcuts⟩ := hspace.rest.exists_cons
  by_cases ht : t.kind = .ident
  · rw [itemProperties_ident hmore ht, itemProperties_ident hmore' (hcuts.kind_eq ▸ ht)]
    exact hspace.followedBy hmore hmore'
      ((properties ih (length_lt_of_rest hmore) hcuts).afterFirst t t')
  · rw [itemProperties_other (head_ne_of_cons hmore ht),
      itemProperties_other (head_ne_of_cons hmore' (hcuts.kind_eq ▸ ht))]
    exact .same hspace

theorem listItem_of (dash : Token) (h : Cuts c ts us) :
    CutShort c (Grammar.listItem stop .never dash ts).toReading
      (Grammar.listItem stop' .never dash us).toReading := by
  have hspace := inFront_trivia h
  obtain ⟨t, t', more, more', hmore, hmore', hcuts⟩ := hspace.rest.exists_cons
  have hlt := length_lt_of_rest hmore
  rw [listItem_cons dash hmore, listItem_cons dash hmore']
  refine (hspace.followedBy hmore hmore' ?_).wrapFrom (by decide) dash
  rw [hcuts.kind_eq]
  by_cases hkey : t.kind = .ident ∧ nextKind? more = some .colon
  · rw [if_pos hkey]
    -- a word in front of a colon is a key, whatever stands in its place
    cases hcuts with
    | here once => exact .missed ((lacks_properties _ once).afterFirst _)
    | cons _ other behind =>
        rw [if_pos (hkey.imp_right behind.nextKind?_colon.mp)]
        exact (properties ih hlt (.cons t other behind)).afterFirst t t
  · have hkey' : ¬(t.kind = .ident ∧ nextKind? more' = some .colon) := by
      rintro ⟨hident, hcolon⟩
      cases hcuts with
      | here => exact nextKind?_of_isNameTail c.isNameTail hcolon
      | cons _ _ behind => exact hkey ⟨hident, behind.nextKind?_colon.mpr hcolon⟩
    rw [if_neg hkey, if_neg hkey']
    split
    · exact (line ih hlt hcuts).afterFirst t t'
    · split
      · rename_i hkind
        obtain ⟨rfl, hbehind⟩ := hcuts.of_kind_ne (by rw [hkind]; decide)
        exact (CutShort.same (hbehind.nothing.withLeaf t')).report _ _ _ _
      · exact cutShort_recoverLine _ hcuts

theorem member (hts : tokens.length < ts.length) (h : Cuts c (t :: tokens) (t' :: us)) :
    CutShort c (Grammar.member stop t tokens) (Grammar.member stop' t' us) := by
  have hrules := ih tokens hts
  rw [Grammar.member, Grammar.member, h.kind_eq]
  split
  · exact keyed ih hts h
  · rename_i hident
    obtain ⟨rfl, hbehind⟩ := h.of_kind_ne hident
    split
    · exact hrules.listItem _ t' hbehind
    · split
      · exact (((hrules.members _ hbehind).wrapFrom (by decide) t').setAside).report _ _ _ _
      · exact (cutShort_errorFrom h).report _ _ _ _

theorem members_of (h : Cuts c ts us) :
    CutShort c (Grammar.members stop .never ts).toReading
      (Grammar.members stop' .never us).toReading := by
  -- blank lines do not hold the word, so both sides go on with tokens of one kind
  have hspace := inFront_blank h
  obtain ⟨t, t', more, more', hmore, hmore', hcuts⟩ := hspace.rest.exists_cons
  by_cases ht : t.kind = .dedent
  · obtain ⟨rfl, hbehind⟩ := hcuts.of_kind_ne (by rw [ht]; decide)
    rw [members_dedent hmore ht, members_dedent hmore' ht]
    exact hspace.followedBy hmore hmore' (.same (hbehind.nothing.withLeaf t'))
  · have hlt := length_lt_of_rest hmore
    have hle := (Grammar.member stop t more).rest_length_le
    rw [members_cons hmore ht, members_cons hmore' (hcuts.kind_eq ▸ ht)]
    refine hspace.followedBy hmore hmore' (CutShort.afterFirst ?_ t t')
    refine (member ih hlt hcuts).append ((ih _ (by omega)).members _) lacks_members
      fun hended => ?_
    rw [hended, members_nil rfl]
    rfl

end CutsAt

theorem cutsAt (c : CutPoint) (stop stop' : Nat) (ts : List Token) : CutsAt c stop stop' ts := by
  induction ts using rules_induction with
  | step ts ih =>
      exact ⟨fun _ => CutsAt.valueEnd_of ih, fun _ => CutsAt.propertyValue_of ih,
        fun _ => CutsAt.property_of ih, fun _ => CutsAt.itemProperties_of ih,
        fun _ => CutsAt.listItem_of ih, fun _ => CutsAt.members_of ih⟩

/-! ## Files -/

theorem cutShort_fileMember (roots : Nat) (h : Cuts c (t :: ts) (t' :: us)) :
    CutShort c (fileMember stop roots t ts) (fileMember stop' roots t' us) := by
  have hrules := cutsAt c stop stop' ts
  rw [fileMember, fileMember, h.kind_eq]
  split
  · have hproperty : CutShort c (property stop .never t ts).toReading
        (property stop' .never t' us).toReading := by
      cases h with
      | here once => exact .missed (lacks_property _ once)
      | cons _ _ behind => exact hrules.property _ t behind
    split
    · exact hproperty.report _ _ _ _
    · exact hproperty
  · rename_i hident
    obtain ⟨rfl, hbehind⟩ := h.of_kind_ne hident
    split
    · exact (((hrules.members _ hbehind).wrapFrom (by decide) t').setAside).report _ _ _ _
    · split
      · exact .same ⟨rfl, List.not_mem_nil, hbehind⟩
      · exact (cutShort_errorFrom h).report _ _ _ _

theorem cutShort_fileMembers (roots : Nat) (h : Cuts c ts us) :
    CutShort c (fileMembers stop .never roots ts).toReading
      (fileMembers stop' .never roots us).toReading := by
  induction ts using rules_induction generalizing us roots with
  | step ts ih =>
      -- by induction on what is left on the first side; the second side follows it
      have hspace := inFront_blank h
      obtain ⟨t, t', more, more', hmore, hmore', hcuts⟩ := hspace.rest.exists_cons
      have hlt := length_lt_of_rest hmore
      have hle := (fileMember stop roots t more).rest_length_le
      rw [fileMembers_cons roots hmore, fileMembers_cons roots hmore', hcuts.kind_eq]
      refine hspace.followedBy hmore hmore' (CutShort.afterFirst ?_ t t')
      refine (cutShort_fileMember roots hcuts).append (ih _ (by omega) _) (lacks_fileMembers _)
        fun hended => ?_
      rw [hended, fileMembers_nil _ rfl]
      rfl

end Grammar
end ModelWorkspace
