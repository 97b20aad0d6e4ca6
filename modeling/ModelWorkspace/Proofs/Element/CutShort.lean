import ModelWorkspace.Proofs.Element.Sites
import ModelWorkspace.Proofs.Tree.CutShort

/-!
# References where a text is cut short

A tree that is cut short at a scalar has an outline that is cut short there: the members around the
scalar are the same up to it, under the same keys, and end with it (`Member.CutShort`).  Whatever
refers to something by this scalar does so in both outlines, from an element of the same kind and by
the same property (`Lowering.kept_rootSites`), since lowering looks neither at what comes behind a
member nor at where a member ends.
-/

namespace ModelWorkspace

/-- Some scalars, and those in front of one of them with another scalar behind, which begins where
that one does and has the range `last`. -/
inductive Scalar.CutShort (last : TextRange) : List Scalar → List Scalar → Prop
  | intro (front behind : List Scalar) {s s' : Scalar} (start : s.range.start = last.start)
      (range : s'.range = last) : CutShort last (front ++ s :: behind) (front ++ [s'])

/-- A member that holds such scalars, and one that ends with the scalar at `last`. -/
inductive Member.CutShort (last : TextRange) : Member → Member → Prop
  | value {range range' keyRange : TextRange} {key : String} {v v' : Value}
      (cut : Scalar.CutShort last v.scalars v'.scalars) :
      CutShort last (.property range key keyRange (some v) none [])
        (.property range' key keyRange (some v') none [])
  | block {range range' keyRange block block' : TextRange} {key : String}
      (front behind : List Member) {m m' : Member} (cut : CutShort last m m') :
      CutShort last (.property range key keyRange none (some block) (front ++ m :: behind))
        (.property range' key keyRange none (some block') (front ++ [m']))
  | itemValue {range range' : TextRange} {v v' : Value}
      (cut : Scalar.CutShort last v.scalars v'.scalars) :
      CutShort last (.item range (some v) []) (.item range' (some v') [])
  | item {range range' : TextRange} (front behind : List Member) {m m' : Member}
      (cut : CutShort last m m') :
      CutShort last (.item range none (front ++ m :: behind)) (.item range' none (front ++ [m']))

/-- Members that are the same up to one that is cut short, and nothing behind it. -/
inductive Member.CutAmong (last : TextRange) : List Member → List Member → Prop
  | intro (front behind : List Member) {m m' : Member} (cut : m.CutShort last m') :
      CutAmong last (front ++ m :: behind) (front ++ [m'])

/-! ## Outlines of trees that are cut short -/

namespace Tree

variable {c : CutPoint} {t t' : Tree}

theorem CutShort.kind_eq (h : CutShort c t t') : t'.kind = t.kind := by
  cases h <;> rfl

theorem CutShort.isPlain (h : CutShort c t t') : t.isPlain = false ∧ t'.isPlain = false := by
  cases h with
  | scalar => exact ⟨rfl, rfl⟩
  | node _ _ visible => exact ⟨beq_eq_false_iff_ne.mpr visible, beq_eq_false_iff_ne.mpr visible⟩

/-- What is no plain tree stands behind the leaf that comes first. -/
theorem exists_front {first : Token} {others front behind : List Tree}
    (h : front ++ t :: behind = .leaf first :: others) (ht : t.isPlain = false) :
    ∃ between, front = .leaf first :: between ∧ others = between ++ t :: behind := by
  cases front with
  | nil =>
      rw [(List.cons.inj h).1] at ht
      cases ht
  | cons u between =>
      obtain ⟨rfl, rfl⟩ := List.cons.inj h
      exact ⟨between, rfl, rfl⟩

theorem parts_split (ht : t.isPlain = false) (front behind : List Tree) :
    parts (front ++ t :: behind) = parts front ++ t :: parts behind := by
  rw [parts_append]
  exact congrArg (parts front ++ ·) (List.filter_cons_of_pos (by rw [ht]; rfl))

/-- The only part among trees is the one that is known. -/
theorem parts_of_eq_singleton {front behind : List Tree} {u : Tree} (ht : t.isPlain = false)
    (h : parts (front ++ t :: behind) = [u]) : u = t ∧ parts front = [] ∧ parts behind = [] := by
  rw [parts_split ht] at h
  cases hfront : parts front with
  | nil =>
      rw [hfront] at h
      obtain ⟨rfl, hbehind⟩ := List.cons.inj h
      exact ⟨rfl, rfl, hbehind⟩
  | cons v more =>
      rw [hfront] at h
      exact absurd (congrArg List.length h) (by simp)

end Tree

namespace Outline

open ModelWorkspace.Tree (parts parts_append parts_leaf parts_split)

variable {c : CutPoint} {t t' : Tree} {last : TextRange} {start : Nat} {front behind : List Tree}

theorem placed_split (start : Nat) (front behind : List Tree) (t : Tree) :
    placed start (front ++ t :: behind) =
      placed start front ++ (start + Tree.totalWidth front, t) ::
        placed (start + Tree.totalWidth front + t.width) behind := by
  rw [placed_append, placed]

/-- A value is found where it is the first one. -/
theorem findSome?_value?_split (hfront : ∀ u ∈ parts front, ¬u.IsValue) {v : Value}
    (hv : value? (start + Tree.totalWidth front, t) = some v) :
    (placed start (front ++ t :: behind)).findSome? value? = some v := by
  rw [placed_split, List.findSome?_append, findSome?_value?_eq_none hfront, Option.none_or,
    List.findSome?_cons_of_isSome (by rw [hv]; rfl), hv]

/-- A block is found where it is the first one. -/
theorem firstBlock_split (hfront : ∀ u ∈ parts front, u.kind ≠ .block) {range : TextRange}
    (hblock : block? (start + Tree.totalWidth front, t) = some range) (behind : List Tree) :
    (placed start (front ++ t :: behind)).findSome? block? = some range ∧
      firstBlock start (front ++ t :: behind) =
        blockMembers (start + Tree.totalWidth front) t := by
  induction front generalizing start with
  | nil =>
      have hblock : block? (start, t) = some range := hblock
      refine ⟨List.findSome?_cons_of_isSome (by rw [hblock]; rfl) |>.trans hblock, ?_⟩
      rw [List.nil_append, firstBlock, hblock]
      rfl
  | cons u front ih =>
      have hnone := block?_eq_none hfront List.mem_cons_self start
      have hrest : ∀ u ∈ parts front, u.kind ≠ .block := fun v hv =>
        hfront v (((List.sublist_cons_self u front).filter _).subset hv)
      rw [Tree.totalWidth, ← Nat.add_assoc] at hblock ⊢
      obtain ⟨hfound, hmembers⟩ := ih hrest hblock
      rw [List.cons_append, placed, List.findSome?_cons_of_isNone (by rw [hnone]; rfl), firstBlock,
        hnone]
      exact ⟨hfound, hmembers⟩

theorem members_split (start : Nat) (front behind : List Tree) (t : Tree) :
    members start (front ++ t :: behind) =
      members start front ++ (member (start + Tree.totalWidth front) t ++
        members (start + Tree.totalWidth front + t.width) behind) := by
  rw [members_eq, placed_split, List.flatMap_append, List.flatMap_cons, ← members_eq, ← members_eq]

/-- What an outline makes of a tree and of what it is cut short to. -/
structure Follows (last : TextRange) (start : Nat) (t t' : Tree) : Prop where
  scalar : t.kind = .scalar → ∃ s s', scalar? (start, t) = some s ∧ scalar? (start, t') = some s' ∧
    s.range.start = last.start ∧ s'.range = last
  value : t.IsValue → ∃ v v', value? (start, t) = some v ∧ value? (start, t') = some v' ∧
    Scalar.CutShort last v.scalars v'.scalars
  block : t.kind = .block → (∃ range range', block? (start, t) = some range ∧
    block? (start, t') = some range') ∧
      Member.CutAmong last (blockMembers start t) (blockMembers start t')
  member : t.kind = .property ∨ t.kind = .listItem → ∃ m m', Member.CutShort last m m' ∧
    member start t = [m] ∧ member start t' = [m']

/-- A property whose key comes first. -/
theorem member_property {key : Token} (named : key.kind = .ident) (start : Nat) (ts : List Tree) :
    let children := .leaf key :: ts
    member start (.node .property children) =
      [.property (TextRange.ofWidth start (Tree.totalWidth children)) key.text
        (rangeAt start (.leaf key)) ((placed start children).findSome? value?)
        ((placed start children).findSome? block?) (firstBlock start children)] := by
  have hkey : key? (placed start (.leaf key :: ts)) =
      some (key.text, rangeAt start (.leaf key)) := by
    rw [key?, placed, List.findSome?_cons_of_isSome] <;> simp [named]
  unfold member
  dsimp only
  rw [hkey]

namespace Follows

variable (h : Follows last (start + Tree.totalWidth front) t t')
include h

/-- Members among which one is cut short. -/
theorem cutAmong (hkind : t.kind = .property ∨ t.kind = .listItem) (behind : List Tree) :
    Member.CutAmong last (members start (front ++ t :: behind))
      (members start (front ++ [t'])) := by
  obtain ⟨m, m', hcut, hm, hm'⟩ := h.member hkind
  rw [members_split, members_split, hm, hm', members]
  exact .intro (members start front) _ hcut

theorem listValue (hkind : t.kind = .scalar) :
    Follows last start (.node .listValue (front ++ t :: behind))
      (.node .listValue (front ++ [t'])) := by
  obtain ⟨s, s', hs, hs', hstart, hrange⟩ := h.scalar hkind
  refine ⟨(fun h => by cases h), fun _ => ⟨_, _, rfl, rfl, ?_⟩, (fun h => by cases h),
    fun h => by rcases h with h | h <;> cases h⟩
  rw [Value.scalars, Value.scalars, placed_split, placed_split, List.filterMap_append,
    List.filterMap_append, List.filterMap_cons_some hs, List.filterMap_cons_some hs']
  exact .intro _ _ hstart hrange

theorem ofBlock (hkind : t.kind = .property ∨ t.kind = .listItem) :
    Follows last start (.node .block (front ++ t :: behind)) (.node .block (front ++ [t'])) where
  scalar := fun h => by cases h
  value := fun hvalue => absurd rfl (ne_of_isValue hvalue).1
  block := fun _ => ⟨⟨_, _, rfl, rfl⟩, h.cutAmong hkind behind⟩
  member := fun h => by rcases h with h | h <;> cases h

/-- A property with one value or one block. -/
theorem ofProperty (cut : Tree.CutShort c t t') {key : Token} {between : List Tree}
    (hkey : front = .leaf key :: between) (named : key.kind = .ident) (hfront : parts front = [])
    (hbehind : parts behind = []) (content : t.IsValue ∨ t.kind = .block) :
    Follows last start (.node .property (front ++ t :: behind))
      (.node .property (front ++ [t'])) where
  scalar := fun h => by cases h
  value := fun hvalue => absurd rfl (ne_of_isValue hvalue).2.1
  block := fun h => by cases h
  member := by
    have hparts : parts (front ++ t :: behind) = [t] := by
      rw [parts_split cut.isPlain.1, hfront, hbehind]
      rfl
    have hparts' : parts (front ++ [t']) = [t'] := by
      rw [parts_split cut.isPlain.2, hfront]
      rfl
    have hnone : ∀ {p : Tree → Prop}, ∀ u ∈ parts front, p u := by
      rw [hfront]
      exact List.forall_mem_nil _
    have hproperty : ∀ {u : Tree} (others : List Tree),
        Outline.member start (.node .property (front ++ u :: others)) =
          [.property (TextRange.ofWidth start (Tree.totalWidth (front ++ u :: others))) key.text
            (rangeAt start (.leaf key)) ((placed start (front ++ u :: others)).findSome? value?)
            ((placed start (front ++ u :: others)).findSome? block?)
            (firstBlock start (front ++ u :: others))] := by
      intro u others
      rw [hkey]
      exact member_property named start (between ++ u :: others)
    intro _
    rw [hproperty, hproperty]
    -- the part that is cut short is the only one, so it is the value or the block on both sides
    rcases content with hvalue | hblock
    · obtain ⟨v, v', hv, hv', hcut⟩ := h.value hvalue
      have hother : ∀ {u : Tree} {us : List Tree}, parts us = [u] → u.IsValue →
          ∀ u ∈ parts us, u.kind ≠ .block := by
        intro u us hus hu
        rw [hus]
        exact List.forall_mem_singleton.mpr (ne_of_isValue hu).1
      have hvalue' : t'.IsValue := by rwa [Tree.IsValue, cut.kind_eq]
      obtain ⟨hblock, hmembers⟩ := firstBlock_eq_nil (hother hparts hvalue) start
      obtain ⟨hblock', hmembers'⟩ := firstBlock_eq_nil (hother hparts' hvalue') start
      rw [findSome?_value?_split hnone hv, findSome?_value?_split hnone hv', hblock, hblock',
        hmembers, hmembers']
      exact ⟨_, _, .value hcut, rfl, rfl⟩
    · obtain ⟨⟨range, range', hrange, hrange'⟩, hcut⟩ := h.block hblock
      have hother : ∀ {u : Tree} {us : List Tree}, parts us = [u] → u.kind = .block →
          ∀ u ∈ parts us, ¬u.IsValue := by
        intro u us hus hu
        rw [hus]
        exact List.forall_mem_singleton.mpr fun hvalue => (ne_of_isValue hvalue).1 hu
      obtain ⟨hfound, hmembers⟩ := firstBlock_split hnone hrange behind
      obtain ⟨hfound', hmembers'⟩ := firstBlock_split hnone hrange' []
      rw [findSome?_value?_eq_none (hother hparts hblock), hfound, hmembers,
        findSome?_value?_eq_none (hother hparts' (cut.kind_eq.trans hblock)), hfound', hmembers']
      generalize blockMembers (start + Tree.totalWidth front) t = ms at hcut
      generalize blockMembers (start + Tree.totalWidth front) t' = ms' at hcut
      cases hcut with
      | intro front behind cut => exact ⟨_, _, .block front behind cut, rfl, rfl⟩

/-- An item with a value. -/
theorem ofItemValue (cut : Tree.CutShort c t t') (hfront : parts front = [])
    (hbehind : parts behind = []) (hvalue : t.IsValue) :
    Follows last start (.node .listItem (front ++ t :: behind))
      (.node .listItem (front ++ [t'])) where
  scalar := fun h => by cases h
  value := fun hvalue => absurd rfl (ne_of_isValue hvalue).2.2
  block := fun h => by cases h
  member := by
    intro _
    obtain ⟨v, v', hv, hv', hcut⟩ := h.value hvalue
    have hnone : ∀ u ∈ parts front, ¬u.IsValue := by
      rw [hfront]
      exact List.forall_mem_nil _
    have hother : ∀ {u : Tree} {others : List Tree}, u.isPlain = false → u.IsValue →
        parts others = [] → members start (front ++ u :: others) = [] := by
      intro u others hplain hu hothers
      refine members_eq_nil ?_ start
      rw [parts_split hplain, hfront, hothers]
      exact List.forall_mem_singleton.mpr (ne_of_isValue hu).2
    have hvalue' : t'.IsValue := by rwa [Tree.IsValue, cut.kind_eq]
    rw [Outline.member, Outline.member, findSome?_value?_split hnone hv,
      findSome?_value?_split hnone hv', hother cut.isPlain.1 hvalue hbehind,
      hother cut.isPlain.2 hvalue' rfl]
    exact ⟨_, _, .itemValue hcut, rfl, rfl⟩

/-- An item with properties. -/
theorem ofItem (cut : Tree.CutShort c t t')
    (properties : ∀ u ∈ parts (front ++ t :: behind), u.kind = .property) :
    Follows last start (.node .listItem (front ++ t :: behind))
      (.node .listItem (front ++ [t'])) where
  scalar := fun h => by cases h
  value := fun hvalue => absurd rfl (ne_of_isValue hvalue).2.2
  block := fun h => by cases h
  member := by
    intro _
    have hsplit := parts_split cut.isPlain.1 front behind
    rw [hsplit] at properties
    obtain ⟨hfront, hproperties⟩ := List.forall_mem_append.mp properties
    have hkind := hproperties t List.mem_cons_self
    have hnone : ∀ {us : List Tree}, (∀ u ∈ parts us, u.kind = .property) →
        (placed start us).findSome? value? = none := fun hus =>
      findSome?_value?_eq_none (fun u hu hvalue => (ne_of_isValue hvalue).2.1 (hus u hu)) start
    have hcut := h.cutAmong (.inl hkind) behind
    rw [Outline.member, Outline.member, hnone (hsplit ▸ properties), hnone (by
      rw [parts_split cut.isPlain.2]
      exact List.forall_mem_append.mpr
        ⟨hfront, List.forall_mem_singleton.mpr (cut.kind_eq.trans hkind)⟩)]
    generalize members start (front ++ t :: behind) = ms at hcut
    generalize members start (front ++ [t']) = ms' at hcut
    cases hcut with
    | intro front behind cut => exact ⟨_, _, .item front behind cut, rfl, rfl⟩

end Follows

/-- The outline of a tree that is cut short is cut short at the same place. -/
theorem follows (h : Tree.CutShort c t t') (hshaped : t.Shaped) {start : Nat}
    (hstop : start + t'.width = last.stop)
    (hlast : last.start + ((c.first :: c.tail).map Token.width).sum = last.stop) :
    Follows last start t t' := by
  induction h generalizing start with
  | @scalar children children' begins ends =>
      -- what is cut short ends the text, so its width tells where it begins
      have hwidth : (Tree.node .scalar children').width =
          ((c.first :: c.tail).map Token.width).sum := by
        rw [Tree.width, Tree.totalWidth_eq_sum, ends]
      have hstart : start = last.start := by omega
      have hrange : (scalarOf start children').range = last := by
        rw [range_scalarOf, TextRange.ofWidth, ← Tree.width, hstop, hstart]
      have hbegins : (scalarOf start children).range.start = last.start := by
        rw [range_scalarOf]
        exact hstart
      exact ⟨fun _ => ⟨_, _, rfl, rfl, hbegins, hrange⟩,
        fun _ => ⟨_, _, rfl, rfl, .intro [] [] hbegins hrange⟩, (fun h => by cases h),
        fun h => by rcases h with h | h <;> cases h⟩
  | @node kind front behind t t' visible inner cut ih =>
      have hplain := cut.isPlain.1
      have hplace : start + Tree.totalWidth front + t'.width = last.stop := by
        rw [Tree.width, Tree.totalWidth_append, ← Nat.add_assoc] at hstop
        exact hstop
      generalize hchildren : front ++ t :: behind = children at hshaped
      cases hshaped with
      | error => exact absurd rfl visible
      | scalar => exact absurd rfl inner
      | listValue opened scalars separated nested =>
          obtain ⟨between, rfl, rfl⟩ := Tree.exists_front hchildren hplain
          have hmem := List.mem_append_right between (List.mem_cons_self (a := t) (l := behind))
          exact (ih (nested t hmem) hplace).listValue (scalars t (mem_parts hmem hplain))
      | property named content nested =>
          obtain ⟨between, rfl, rfl⟩ := Tree.exists_front hchildren hplain
          have hmem := List.mem_append_right between (List.mem_cons_self (a := t) (l := behind))
          have hinner := ih (nested t hmem) hplace
          rcases content with hnone | ⟨u, hparts, hcontent⟩
          · exact absurd (hnone ▸ mem_parts hmem hplain) List.not_mem_nil
          · obtain ⟨rfl, hfront, hbehind⟩ := Tree.parts_of_eq_singleton hplain hparts
            exact hinner.ofProperty cut rfl named hfront hbehind hcontent
      | listItem marked content nested =>
          obtain ⟨between, rfl, rfl⟩ := Tree.exists_front hchildren hplain
          have hmem := List.mem_append_right between (List.mem_cons_self (a := t) (l := behind))
          have hinner := ih (nested t hmem) hplace
          rcases content with ⟨u, hparts, hvalue⟩ | hproperties
          · obtain ⟨rfl, hfront, hbehind⟩ := Tree.parts_of_eq_singleton hplain hparts
            exact hinner.ofItemValue cut hfront hbehind hvalue
          · exact hinner.ofItem cut hproperties
      | block members nested =>
          subst hchildren
          have hmem := List.mem_append_right front (List.mem_cons_self (a := t) (l := behind))
          exact (ih (nested t hmem) hplace).ofBlock (members t (mem_parts hmem hplain))

end Outline

/-! ## Where scalars begin -/

theorem Member.allScalars_append (ms others : List Member) :
    allScalars (ms ++ others) = allScalars ms ++ allScalars others := by
  induction ms with
  | nil => rfl
  | cons m ms ih => rw [List.cons_append, allScalars, ih, allScalars, List.append_assoc]

namespace Tree

theorem firsts_subset {ts : List Tree} {t : Tree} (h : t ∈ ts) : t.firsts ⊆ allFirsts ts := by
  obtain ⟨front, behind, rfl⟩ := List.append_of_mem h
  rw [allFirsts_append, allFirsts]
  exact List.subset_append_of_subset_right _ (List.subset_append_left _ _)

theorem firsts_node {kind : SyntaxKind} (herror : kind ≠ .error) (hscalar : kind ≠ .scalar)
    (ts : List Tree) : (Tree.node kind ts).firsts = allFirsts ts := by
  rw [firsts, if_neg herror, if_neg hscalar]

end Tree

namespace Outline

open ModelWorkspace.Tree (allLeaves allFirsts)

/-- What stands side by side is tiled where it stands. -/
theorem tiles_of_mem_placed {start : Nat} {chars : List Char} {ts : List Tree}
    (h : Tiles start chars (allLeaves ts)) {x : Nat × Tree} (hx : x ∈ placed start ts) :
    ∃ chars, Tiles x.1 chars x.2.leaves := by
  induction ts generalizing start chars with
  | nil => cases hx
  | cons t ts ih =>
      obtain ⟨front, behind, hfront, hbehind⟩ := Tiles.of_append h
      rw [← Tree.width_eq_sum] at hbehind
      rcases List.mem_cons.mp hx with rfl | hx
      · exact ⟨front, hfront⟩
      · exact ih hbehind hx

/-- Scalars begin where some tokens stand. -/
def BeginAt (ts : List Token) (ss : List Scalar) : Prop :=
  ∀ s ∈ ss, s.range.start ∈ ts.map Token.offset

theorem BeginAt.append {ts us : List Token} {ss others : List Scalar} (h : BeginAt ts ss)
    (hothers : BeginAt us others) : BeginAt (ts ++ us) (ss ++ others) := by
  intro s hs
  rw [List.map_append]
  exact List.mem_append.mpr ((List.mem_append.mp hs).imp (h s) (hothers s))

theorem BeginAt.mono {ts us : List Token} {ss : List Scalar} (h : BeginAt ts ss) (hsub : ts ⊆ us) :
    BeginAt us ss :=
  fun s hs => List.map_subset Token.offset hsub (h s hs)

/-- The scalars of a tree begin with tokens that an outline sees. -/
structure Begins (start : Nat) (t : Tree) : Prop where
  scalar : ∀ s ∈ scalar? (start, t), BeginAt t.firsts [s]
  value : ∀ v ∈ value? (start, t), BeginAt t.firsts v.scalars
  block : t.kind = .block → BeginAt t.firsts (Member.allScalars (blockMembers start t))
  member : BeginAt t.firsts (Member.allScalars (member start t))

section Children

variable {ts : List Tree} (h : ∀ x ∈ placed start ts, Begins x.1 x.2)
include h

theorem beginAt_scalars : BeginAt (allFirsts ts) ((placed start ts).filterMap scalar?) := by
  intro s hs
  obtain ⟨x, hx, hscalar⟩ := List.mem_filterMap.mp hs
  exact ((h x hx).scalar s hscalar).mono (Tree.firsts_subset (bounds_of_mem_placed hx).1) s
    (List.mem_singleton_self s)

theorem beginAt_value :
    BeginAt (allFirsts ts) ((((placed start ts).findSome? value?).map Value.scalars).getD []) := by
  cases hv : (placed start ts).findSome? value? with
  | none => exact List.forall_mem_nil _
  | some v =>
      obtain ⟨x, hx, hvalue⟩ := List.exists_of_findSome?_eq_some hv
      exact ((h x hx).value v hvalue).mono (Tree.firsts_subset (bounds_of_mem_placed hx).1)

theorem beginAt_firstBlock : BeginAt (allFirsts ts) (Member.allScalars (firstBlock start ts)) := by
  rcases firstBlock_eq start ts with hnone | ⟨x, hx, hkind, hblock⟩
  · rw [hnone]
    exact List.forall_mem_nil _
  · rw [hblock]
    exact ((h x hx).block hkind).mono (Tree.firsts_subset (bounds_of_mem_placed hx).1)

theorem beginAt_members : BeginAt (allFirsts ts) (Member.allScalars (members start ts)) := by
  induction ts generalizing start with
  | nil => exact List.forall_mem_nil _
  | cons t ts ih =>
      obtain ⟨ht, hts⟩ := List.forall_mem_cons.mp h
      rw [members, Member.allScalars_append, allFirsts]
      exact ht.member.append (ih hts)

end Children

theorem begins_leaf (start : Nat) (t : Token) : Begins start (.leaf t) where
  scalar := fun _ hs => by cases hs
  value := fun _ hv => by cases hv
  block := fun hkind => List.forall_mem_nil _
  member := List.forall_mem_nil _

theorem begins {t : Tree} (h : t.Shaped) {start : Nat} {chars : List Char}
    (htiles : Tiles start chars t.leaves) : Begins start t := by
  -- what stands behind the token that comes first begins in its turn
  have hbehind : ∀ {first : Token} {children : List Tree} {start : Nat} {chars : List Char},
      (∀ t ∈ children, ∀ {start : Nat} {chars : List Char}, Tiles start chars t.leaves →
        Begins start t) → Tiles start chars (allLeaves (.leaf first :: children)) →
      ∀ x ∈ placed start (.leaf first :: children), Begins x.1 x.2 := by
    intro first children start chars ih htiles x hx
    obtain ⟨_, hx'⟩ := tiles_of_mem_placed htiles hx
    rcases List.mem_cons.mp (bounds_of_mem_placed hx).1 with hleaf | hmem
    · rw [hleaf]
      exact begins_leaf x.1 first
    · exact ih x.2 hmem hx'
  induction h generalizing start chars with
  | leaf t => exact begins_leaf start t
  | error children =>
      exact ⟨(fun _ h => by cases h), (fun _ h => by cases h), (fun h => by cases h),
        List.forall_mem_nil _⟩
  | @scalar children first begun value =>
      have hstart : start ∈ (Tree.node .scalar children).firsts.map Token.offset := by
        have hleaves : allLeaves children = first :: (allLeaves children).tail :=
          (List.cons_head?_tail begun).symm
        have hchildren : Tiles start chars (allLeaves children) := htiles
        rw [hleaves] at hchildren
        rw [Tree.firsts_scalar, begun]
        cases hchildren
        exact List.mem_singleton_self _
      have hscalar : (scalarOf start children).range.start = start := by rw [range_scalarOf]; rfl
      have hone : BeginAt (Tree.node .scalar children).firsts [scalarOf start children] :=
        List.forall_mem_singleton.mpr (hscalar.symm ▸ hstart)
      refine ⟨?_, ?_, (fun h => by cases h), List.forall_mem_nil _⟩
      · rintro _ ⟨⟩
        exact hone
      · rintro _ ⟨⟩
        exact hone
  | @listValue children opening opened scalars separated nested ih =>
      refine ⟨(fun _ h => by cases h), ?_, (fun h => by cases h), List.forall_mem_nil _⟩
      rintro _ ⟨⟩
      rw [Tree.firsts_node (by decide) (by decide)]
      exact beginAt_scalars (hbehind ih htiles)
  | @property children key named content nested ih =>
      refine ⟨(fun _ h => by cases h), (fun _ h => by cases h), (fun h => by cases h), ?_⟩
      have hchildren := hbehind ih htiles
      rw [Tree.firsts_node (by decide) (by decide), member_property named, Member.allScalars,
        Member.allScalars, List.append_nil, Member.scalars]
      exact List.forall_mem_append.mpr ⟨beginAt_value hchildren, beginAt_firstBlock hchildren⟩
  | @listItem children dash marked content nested ih =>
      refine ⟨(fun _ h => by cases h), (fun _ h => by cases h), (fun h => by cases h), ?_⟩
      have hchildren := hbehind ih htiles
      rw [Tree.firsts_node (by decide) (by decide), member, Member.allScalars,
        Member.allScalars, List.append_nil, Member.scalars]
      exact List.forall_mem_append.mpr ⟨beginAt_value hchildren, beginAt_members hchildren⟩
  | @block children members nested ih =>
      refine ⟨(fun _ h => by cases h), (fun _ h => by cases h), fun _ => ?_, List.forall_mem_nil _⟩
      rw [Tree.firsts_node (by decide) (by decide)]
      refine beginAt_members fun x hx => ?_
      obtain ⟨_, hx'⟩ := tiles_of_mem_placed htiles hx
      exact ih x.2 (bounds_of_mem_placed hx).1 hx'

end Outline

/-! ## References of members that are cut short -/

theorem Scalar.CutShort.mem_starts {last : TextRange} {ss ss' : List Scalar}
    (h : Scalar.CutShort last ss ss') : last.start ∈ ss.map (·.range.start) := by
  cases h with
  | @intro front behind s s' start =>
      rw [List.map_append, List.map_cons, start]
      exact List.mem_append_right _ List.mem_cons_self

namespace Member

variable {last : TextRange} {m m' : Member} {ms ms' : List Member}

/-- Where the scalars of members begin. -/
def starts (ms : List Member) : List Nat :=
  (allScalars ms).map (·.range.start)

theorem starts_split (front behind : List Member) (m : Member) :
    starts (front ++ m :: behind) = starts front ++ (starts [m] ++ starts behind) := by
  have hcons : m :: behind = [m] ++ behind := rfl
  unfold starts
  rw [allScalars_append, hcons, allScalars_append, List.map_append, List.map_append]

theorem starts_value (range keyRange : TextRange) (key : String) (v : Value) :
    starts [.property range key keyRange (some v) none []] = v.scalars.map (·.range.start) := by
  simp [starts, allScalars, scalars]

theorem starts_block (range keyRange block : TextRange) (key : String) (ms : List Member) :
    starts [.property range key keyRange none (some block) ms] = starts ms := by
  simp [starts, allScalars, scalars]

theorem starts_itemValue (range : TextRange) (v : Value) :
    starts [.item range (some v) []] = v.scalars.map (·.range.start) := by
  simp [starts, allScalars, scalars]

theorem starts_item (range : TextRange) (ms : List Member) :
    starts [.item range none ms] = starts ms := by
  simp [starts, allScalars, scalars]

/-- The scalar that is cut short is one of the member. -/
theorem CutShort.mem_starts (h : m.CutShort last m') : last.start ∈ starts [m] := by
  induction h with
  | value cut => exact starts_value .. ▸ cut.mem_starts
  | block front behind cut ih =>
      rw [starts_block, starts_split]
      exact List.mem_append_right _ (List.mem_append_left _ ih)
  | itemValue cut => exact starts_itemValue .. ▸ cut.mem_starts
  | item front behind cut ih =>
      rw [starts_item, starts_split]
      exact List.mem_append_right _ (List.mem_append_left _ ih)

/-- Where all scalars begin at different places, no other member has the one that is cut short. -/
theorem CutShort.notMem_starts (h : m.CutShort last m') {front behind : List Member}
    (hnodup : (starts (front ++ m :: behind)).Nodup) :
    last.start ∉ starts front ∧ last.start ∉ starts behind ∧ (starts [m]).Nodup := by
  have hmem := h.mem_starts
  rw [starts_split, List.nodup_append, List.nodup_append] at hnodup
  obtain ⟨-, ⟨hm, -, hbehind⟩, hfront⟩ := hnodup
  exact ⟨fun hin => hfront _ hin _ (List.mem_append_left _ hmem) rfl,
    fun hin => hbehind _ hmem _ hin rfl, hm⟩

end Member

namespace Lowering

variable {last : TextRange}

/-- The references that begin where `last` does are there again with the range `last`, from elements
of the same kinds and by the same properties. -/
def CarriesOver (last : TextRange) (sites sites' : List (ElementKind × ReferenceSite)) : Prop :=
  ∀ s ∈ sites, s.2.range.start = last.start →
    ∃ s' ∈ sites', s'.1 = s.1 ∧ s'.2.property = s.2.property ∧ s'.2.range = last

variable {sites sites' front behind front' : List (ElementKind × ReferenceSite)}

theorem carriesOver_nil (sites' : List (ElementKind × ReferenceSite)) :
    CarriesOver last [] sites' :=
  List.forall_mem_nil _

/-- Where none begins there is nothing to carry over. -/
theorem carriesOver_of_notMem {ranges : List TextRange} (h : (sites.map (·.2.range)).Sublist ranges)
    (hranges : last.start ∉ ranges.map (·.start)) (sites' : List (ElementKind × ReferenceSite)) :
    CarriesOver last sites sites' := by
  intro s hs hstart
  exact absurd (List.mem_map.mpr ⟨s.2.range, h.subset (List.mem_map_of_mem hs), hstart⟩) hranges

theorem CarriesOver.append (h : CarriesOver last sites sites') (hfront : CarriesOver last front [])
    (hbehind : CarriesOver last behind []) :
    CarriesOver last (front ++ (sites ++ behind)) (front' ++ sites') := by
  intro s hs hstart
  rcases List.mem_append.mp hs with hs | hs
  · obtain ⟨_, hmem, -⟩ := hfront s hs hstart
    exact absurd hmem List.not_mem_nil
  · rcases List.mem_append.mp hs with hs | hs
    · obtain ⟨s', hs', hsame⟩ := h s hs hstart
      exact ⟨s', List.mem_append_right _ hs', hsame⟩
    · obtain ⟨_, hmem, -⟩ := hbehind s hs hstart
      exact absurd hmem List.not_mem_nil

/-- A scalar that is named makes a reference. -/
theorem exists_mem_sitesOf (spec : ReferenceSpec) {s : Scalar} {scalars : List Scalar}
    (h : s ∈ scalars) : ∃ site ∈ sitesOf spec scalars,
      site.property = spec.property ∧ site.range = s.range := by
  obtain ⟨index, hindex⟩ := List.mem_iff_getElem?.mp h
  have hmem : (s, index) ∈ scalars.zipIdx := List.mem_zipIdx_iff_getElem?.mpr hindex
  exact ⟨_, List.mem_map_of_mem hmem, rfl, rfl⟩

/-- The scalar that is cut short is among those that count in either place or in none. -/
theorem carriesOver_sitesOf {ss ss' : List Scalar} (h : Scalar.CutShort last ss ss')
    (hnodup : (ss.map (·.range.start)).Nodup) (kind : ElementKind) (spec : ReferenceSpec) :
    CarriesOver last
      ((sitesOf spec (if spec.many then ss else ss.take 1)).map fun site => (kind, site))
      ((sitesOf spec (if spec.many then ss' else ss'.take 1)).map fun site => (kind, site)) := by
  have hcarried : ∀ {ss ss' : List Scalar},
      ((∃ s ∈ ss, s.range.start = last.start) → ∃ s' ∈ ss', s'.range = last) →
      CarriesOver last ((sitesOf spec ss).map fun site => (kind, site))
        ((sitesOf spec ss').map fun site => (kind, site)) := by
    intro ss ss' h x hx hstart
    obtain ⟨site, hsite, rfl⟩ := List.mem_map.mp hx
    obtain ⟨s, hs, hrange⟩ := range_of_mem_sitesOf hsite
    obtain ⟨s', hs', hlast⟩ := h ⟨s, hs, hrange ▸ hstart⟩
    obtain ⟨site', hsite', hproperty, hrange'⟩ := exists_mem_sitesOf spec hs'
    exact ⟨_, List.mem_map_of_mem hsite', rfl,
      hproperty.trans (property_of_mem_sitesOf hsite).symm, hrange'.trans hlast⟩
  cases h with
  | @intro front behind s s' start range =>
      split
      · exact hcarried fun _ => ⟨s', by simp, range⟩
      · refine hcarried ?_
        cases front with
        | nil => exact fun _ => ⟨s', by simp, range⟩
        | cons f front =>
            -- only the first scalar counts, which begins elsewhere
            rintro ⟨first, hfirst, hstart⟩
            rw [List.cons_append, List.take_succ_cons, List.take_zero, List.mem_singleton] at hfirst
            subst hfirst
            rw [List.cons_append, List.map_cons, List.nodup_cons] at hnodup
            refine absurd ?_ hnodup.1
            rw [hstart, ← start]
            exact List.mem_map_of_mem (by simp)

theorem membersSites_append (kind : ElementKind) (seen : List String) (ms others : List Member) :
    membersSites kind seen (ms ++ others) =
      membersSites kind seen ms ++ membersSites kind (ms.foldl usedBy seen) others := by
  induction ms generalizing seen with
  | nil => rfl
  | cons m ms ih =>
      rw [List.cons_append, membersSites, ih, membersSites, List.append_assoc, List.foldl_cons]

theorem itemsSites_append (kind : ElementKind) (ms others : List Member) :
    itemsSites kind (ms ++ others) = itemsSites kind ms ++ itemsSites kind others := by
  induction ms with
  | nil => rfl
  | cons m ms ih => rw [List.cons_append, itemsSites, ih, itemsSites, List.append_assoc]

/-- The references of a member that is cut short are carried over, whether it is a property or an
item. -/
structure CarriesMember (last : TextRange) (m m' : Member) : Prop where
  member : ∀ kind seen, CarriesOver last (memberSites kind seen m) (memberSites kind seen m')
  item : ∀ kind, CarriesOver last (itemSites kind m) (itemSites kind m')

section Among

variable {m m' : Member} {fore after : List Member}

theorem carriesOver_membersSites (hm : CarriesMember last m m') (hcut : m.CutShort last m')
    (hnodup : (Member.starts (fore ++ m :: after)).Nodup) (kind : ElementKind)
    (seen : List String) :
    CarriesOver last (membersSites kind seen (fore ++ m :: after))
      (membersSites kind seen (fore ++ [m'])) := by
  obtain ⟨hfore, hafter, -⟩ := hcut.notMem_starts hnodup
  have hnone : ∀ {ms : List Member}, last.start ∉ Member.starts ms → ∀ seen,
      CarriesOver last (membersSites kind seen ms) [] := fun hms seen =>
    carriesOver_of_notMem (membersSites_sublist (fun m _ => namedInOrder m) kind seen)
      (by rwa [List.map_map]) []
  rw [membersSites_append, membersSites_append, membersSites, membersSites, membersSites,
    List.append_nil]
  exact (hm.member kind _).append (hnone hfore seen) (hnone hafter _)

theorem carriesOver_itemsSites (hm : CarriesMember last m m') (hcut : m.CutShort last m')
    (hnodup : (Member.starts (fore ++ m :: after)).Nodup) (kind : ElementKind) :
    CarriesOver last (itemsSites kind (fore ++ m :: after)) (itemsSites kind (fore ++ [m'])) := by
  obtain ⟨hfore, hafter, -⟩ := hcut.notMem_starts hnodup
  have hnone : ∀ {ms : List Member}, last.start ∉ Member.starts ms →
      CarriesOver last (itemsSites kind ms) [] := fun hms =>
    carriesOver_of_notMem (itemsSites_sublist (fun m _ => namedInOrder m) kind)
      (by rwa [List.map_map]) []
  rw [itemsSites_append, itemsSites_append, itemsSites, itemsSites, itemsSites, List.append_nil]
  exact (hm.item kind).append (hnone hfore) (hnone hafter)

theorem referenceScalars_split (fore after : List Member) (m : Member) :
    referenceScalars none (fore ++ m :: after) =
      referenceScalars none fore ++ (referenceScalars none [m] ++ referenceScalars none after) := by
  have hcons : m :: after = [m] ++ after := rfl
  unfold referenceScalars
  rw [hcons, List.flatMap_append, List.flatMap_append]

/-- The values of items, if one of them is cut short, unless it is no value. -/
theorem referenceScalars_cutShort (hcut : m.CutShort last m')
    (hnodup : (Member.starts (fore ++ m :: after)).Nodup) :
    Scalar.CutShort last (referenceScalars none (fore ++ m :: after))
        (referenceScalars none (fore ++ [m'])) ∨
      last.start ∉ (referenceScalars none (fore ++ m :: after)).map (·.range.start) := by
  obtain ⟨hfore, hafter, -⟩ := hcut.notMem_starts hnodup
  have hnone : ∀ {ms : List Member}, last.start ∉ Member.starts ms →
      last.start ∉ (referenceScalars none ms).map (·.range.start) := fun hms hmem =>
    hms (((referenceScalars_sublist none _).map _).subset hmem)
  have hother : referenceScalars none [m] = [] →
      last.start ∉ (referenceScalars none (fore ++ m :: after)).map (·.range.start) := by
    intro hnil hmem
    rw [referenceScalars_split, hnil, List.nil_append, List.map_append] at hmem
    exact (List.mem_append.mp hmem).elim (hnone hfore) (hnone hafter)
  cases hcut with
  | value => exact .inr (hother rfl)
  | block => exact .inr (hother rfl)
  | item => exact .inr (hother rfl)
  | @itemValue range range' v v' cut =>
      left
      have hvalue : ∀ {range : TextRange} {v : Value},
          referenceScalars none [.item range (some v) []] = v.scalars := List.append_nil _
      rw [referenceScalars_split, referenceScalars_split, hvalue, hvalue]
      generalize v.scalars = ss at cut
      generalize v'.scalars = ss' at cut
      cases cut with
      | @intro front behind s s' start hrange =>
          have hcut := Scalar.CutShort.intro (referenceScalars none fore ++ front)
            (behind ++ referenceScalars none after) start hrange
          have hnil : referenceScalars none [] = [] := rfl
          rw [List.append_assoc, List.append_assoc] at hcut
          rwa [hnil, List.append_nil, List.append_assoc, List.cons_append]

end Among

/-- A member that is cut short refers to the same. -/
theorem carriesMember {m m' : Member} (h : m.CutShort last m')
    (hnodup : (Member.starts [m]).Nodup) : CarriesMember last m m' := by
  induction h with
  | @value range range' keyRange key v v' cut =>
      rw [Member.starts_value] at hnodup
      refine ⟨fun kind seen => ?_, fun _ => carriesOver_nil _⟩
      rw [memberSites, memberSites]
      split
      · exact carriesOver_nil _
      · split
        · split <;> exact carriesOver_nil _
        · split
          · rename_i spec _
            exact carriesOver_sitesOf cut hnodup kind spec
          · exact carriesOver_nil _
  | @block range range' keyRange block block' key front behind m m' cut ih =>
      rw [Member.starts_block] at hnodup
      have hm := ih (cut.notMem_starts hnodup).2.2
      refine ⟨fun kind seen => ?_, fun _ => carriesOver_nil _⟩
      rw [memberSites, memberSites]
      split
      · exact carriesOver_nil _
      · split
        · split
          · exact carriesOver_itemsSites hm cut hnodup _
          · exact carriesOver_membersSites hm cut hnodup _ []
        · split
          · rename_i spec _
            rcases referenceScalars_cutShort cut hnodup with hscalars | hnone
            · have hsublist := (referenceScalars_sublist none (front ++ m :: behind)).map
                (·.range.start)
              exact carriesOver_sitesOf hscalars (hsublist.nodup hnodup) kind spec
            · exact carriesOver_of_notMem (namedSites_sublist kind spec _) (by rwa [List.map_map]) _
          · exact carriesOver_nil _
  | itemValue cut => exact ⟨fun _ _ => carriesOver_nil _, fun _ => carriesOver_nil _⟩
  | @item range range' front behind m m' cut ih =>
      rw [Member.starts_item] at hnodup
      have hm := ih (cut.notMem_starts hnodup).2.2
      exact ⟨fun _ _ => carriesOver_nil _, fun kind =>
        carriesOver_membersSites hm cut hnodup kind []⟩

/-- The root that members are lowered to refers to the same as the one that they are lowered to
when they are cut short. -/
theorem carriesOver_rootSites {ms ms' : List Member} (h : Member.CutAmong last ms ms')
    (hnodup : (Member.starts ms).Nodup) : CarriesOver last (rootSites ms) (rootSites ms') := by
  have hnone : ∀ {ms : List Member}, last.start ∉ Member.starts ms → ∀ sites',
      CarriesOver last (rootSites ms) sites' := fun hms sites' =>
    carriesOver_of_notMem (rootSites_sublist _) (by rwa [List.map_map]) sites'
  cases h with
  | @intro front behind m m' cut =>
      obtain ⟨hfront, hbehind, hm⟩ := cut.notMem_starts hnodup
      clear hnodup
      -- only the first property is the root; one in front of the cut makes no reference there
      induction front with
      | cons first front ih =>
          have hfirst : first :: front = [] ++ first :: front := rfl
          rw [hfirst, Member.starts_split, List.mem_append, List.mem_append] at hfront
          cases first with
          | item => exact ih fun hmem => hfront (.inr (.inr hmem))
          | property range key keyRange value block members =>
              exact hnone (fun hmem => hfront (.inr (.inl hmem)))
                (rootSites (.property range key keyRange value block members :: (front ++ [m'])))
      | nil =>
          cases cut with
          | value =>
              rw [List.nil_append, rootSites]
              split <;> exact carriesOver_nil _
          | @block range range' keyRange block block' key fore after m m' cut =>
              rw [Member.starts_block] at hm
              rw [List.nil_append, List.nil_append, rootSites, rootSites]
              cases ElementKind.ofRootKey? key with
              | none => exact carriesOver_nil _
              | some kind =>
                  exact carriesOver_membersSites (carriesMember cut (cut.notMem_starts hm).2.2) cut
                    hm kind []
          | itemValue => exact hnone hbehind _
          | item => exact hnone hbehind _

/-- What refers to something is a root. -/
theorem exists_root_of_mem_rootSites {ms : List Member} {s : ElementKind × ReferenceSite}
    (hs : s ∈ rootSites ms) : ∃ e, (root ms).1 = some e := by
  induction ms with
  | nil => exact absurd hs List.not_mem_nil
  | cons m ms ih =>
      cases m with
      | item => exact ih hs
      | property range key keyRange value block members =>
          rw [rootSites] at hs
          rw [root]
          cases hkind : ElementKind.ofRootKey? key with
          | none =>
              rw [hkind] at hs
              exact absurd hs List.not_mem_nil
          | some kind =>
              cases block with
              | none => exact ⟨_, rfl⟩
              | some block => exact ⟨_, rfl⟩

end Lowering
end ModelWorkspace
