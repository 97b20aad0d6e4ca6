import ModelWorkspace.Proofs.Element.Spans
import ModelWorkspace.Proofs.Tree.Shape

/-!
# Scalars stand apart

Something is always written between two scalars of an outline, and in front of the first one: a
key, a dash, a bracket or a comma.  So their ranges do not even touch (`Member.Spaced`).  The
shape of a tree says what is written there (`Tree.Shaped`), and that a token which is no mark of
layout takes some text says that it is something.
-/

namespace ModelWorkspace

/-- Ranges that are not empty stand in another one, behind its start, with a gap between them. -/
structure TextRange.Scattered (outer : TextRange) (ranges : List TextRange) : Prop where
  inside : ∀ range ∈ ranges,
    outer.start < range.start ∧ range.start < range.stop ∧ range.stop ≤ outer.stop
  apart : ranges.Pairwise fun earlier later => earlier.stop < later.start

/-- What is written in a member stands behind its start, each scalar apart from the others; and
a member has either a value or members of its own. -/
inductive Member.Spaced : Member → Prop
  | property {range : TextRange} {key : String} {keyRange : TextRange} {value : Option Value}
      {block : Option TextRange} {members : List Member}
      (filled : range.start < range.stop)
      (valued : ∀ v ∈ value, range.Scattered (v.scalars.map (·.range)))
      (behind : ∀ m ∈ members, range.start < m.range.start)
      (one : value = none ∨ block = none ∧ members = [])
      (nested : ∀ m ∈ members, Spaced m) :
      Spaced (.property range key keyRange value block members)
  | item {range : TextRange} {value : Option Value} {members : List Member}
      (filled : range.start < range.stop)
      (valued : ∀ v ∈ value, range.Scattered (v.scalars.map (·.range)))
      (behind : ∀ m ∈ members, range.start < m.range.start)
      (one : value = none ∨ members = [])
      (nested : ∀ m ∈ members, Spaced m) : Spaced (.item range value members)

mutual

/-- The scalars of a member and of all that is nested in it. -/
def Member.scalars : Member → List Scalar
  | .property _ _ _ value _ members =>
    (value.map Value.scalars).getD [] ++ Member.allScalars members
  | .item _ value members => (value.map Value.scalars).getD [] ++ Member.allScalars members
termination_by structural m => m

/-- The scalars of members and of all that is nested in them. -/
def Member.allScalars : List Member → List Scalar
  | [] => []
  | m :: ms => m.scalars ++ Member.allScalars ms
termination_by structural ms => ms

end

namespace TextRange

theorem scattered_nil (outer : TextRange) : outer.Scattered [] :=
  ⟨List.forall_mem_nil _, List.Pairwise.nil⟩

theorem Scattered.mono {outer larger : TextRange} {ranges : List TextRange}
    (h : outer.Scattered ranges) (hstart : larger.start ≤ outer.start)
    (hstop : outer.stop ≤ larger.stop) : larger.Scattered ranges where
  inside := fun range hrange =>
    have ⟨hbehind, hfilled, hbefore⟩ := h.inside range hrange
    ⟨Nat.lt_of_le_of_lt hstart hbehind, hfilled, Nat.le_trans hbefore hstop⟩
  apart := h.apart

end TextRange

namespace Member

/-- What is scattered in each of several members is scattered in the range that they stand in. -/
theorem scattered_allScalars {outer : TextRange} {ms : List Member}
    (hspread : outer.Spread (ms.map Member.range))
    (h : ∀ m ∈ ms, m.range.Scattered (m.scalars.map (·.range))) :
    outer.Scattered ((allScalars ms).map (·.range)) := by
  induction ms generalizing outer with
  | nil => exact TextRange.scattered_nil outer
  | cons m rest ih =>
      obtain ⟨hm, hrest⟩ := List.forall_mem_cons.mp h
      obtain ⟨hinside, hinsideRest⟩ := List.forall_mem_cons.mp hspread.inside
      obtain ⟨hbehind, hapart⟩ := List.pairwise_cons.mp hspread.apart
      -- what stands in the members behind the first one stands behind its end
      have hothers : TextRange.Scattered ⟨m.range.stop, outer.stop⟩
          ((allScalars rest).map (·.range)) :=
        ih ⟨fun range hrange => { hinsideRest range hrange with start := hbehind range hrange },
          hapart⟩ hrest
      have hfirst := hm.mono hinside.start hinside.stop
      have hlater := hothers.mono (Nat.le_trans hinside.start hinside.ordered) (Nat.le_refl _)
      rw [allScalars, List.map_append]
      refine ⟨List.forall_mem_append.mpr ⟨hfirst.inside, hlater.inside⟩,
        List.pairwise_append.mpr ⟨hm.apart, hothers.apart, fun earlier hearlier later hlater => ?_⟩⟩
      exact Nat.lt_of_le_of_lt (hm.inside earlier hearlier).2.2 (hothers.inside later hlater).1

/-- The scalars of a member stand behind its start, each apart from the others. -/
theorem Spaced.scattered {m : Member} (h : m.Spaced) (hnested : m.Nested) :
    m.range.Scattered (m.scalars.map (·.range)) := by
  have heither : ∀ {range : TextRange} {value : Option Value} {members : List Member},
      (∀ v ∈ value, range.Scattered (v.scalars.map (·.range))) →
      range.Scattered ((allScalars members).map (·.range)) → value = none ∨ members = [] →
      range.Scattered (((value.map Value.scalars).getD [] ++ allScalars members).map (·.range)) := by
    intro range value members hvalue hmembers hone
    rcases hone with rfl | rfl
    · exact hmembers
    · cases value with
      | none => exact TextRange.scattered_nil range
      | some v =>
          rw [allScalars, List.append_nil]
          exact hvalue v rfl
  induction h with
  | property filled valued behind one nested ih =>
      cases hnested with
      | property _ _ spread inner =>
          exact heither valued (scattered_allScalars spread fun m hm => ih m hm (inner m hm))
            (one.imp_right And.right)
  | item filled valued behind one nested ih =>
      cases hnested with
      | item _ _ spread inner =>
          exact heither valued (scattered_allScalars spread fun m hm => ih m hm (inner m hm)) one

end Member

namespace Outline

open ModelWorkspace.Tree (parts parts_append parts_leaf Separated)

variable {start : Nat} {ts us : List Tree}

/-! ## What is found among trees -/

theorem mem_parts {t : Tree} (ht : t ∈ ts) (hplain : t.isPlain = false) : t ∈ parts ts :=
  List.mem_filter.mpr ⟨ht, by rw [hplain]; rfl⟩

theorem ne_of_isValue {t : Tree} (h : t.IsValue) :
    t.kind ≠ .block ∧ t.kind ≠ .property ∧ t.kind ≠ .listItem := by
  rcases h with h | h <;> rw [h] <;> decide

theorem of_value?_eq_some {x : Nat × Tree} {v : Value} (h : value? x = some v) :
    x.2.isPlain = false ∧ x.2.IsValue := by
  unfold value? at h
  split at h
  · exact ⟨rfl, .inl rfl⟩
  · exact ⟨rfl, .inr rfl⟩
  · cases h

theorem isPlain_of_block? {x : Nat × Tree} {range : TextRange} (h : block? x = some range) :
    x.2.isPlain = false := by
  unfold block? at h
  split at h
  · rfl
  · cases h

/-- No value is found unless one stands there. -/
theorem findSome?_value?_eq_none (h : ∀ t ∈ parts ts, ¬ t.IsValue) (start : Nat) :
    (placed start ts).findSome? value? = none := by
  refine List.findSome?_eq_none_iff.mpr fun x hx => Option.eq_none_iff_forall_ne_some.mpr ?_
  intro v hv
  obtain ⟨hplain, hvalue⟩ := of_value?_eq_some hv
  exact h x.2 (mem_parts (bounds_of_mem_placed hx).1 hplain) hvalue

theorem block?_eq_none (h : ∀ t ∈ parts ts, t.kind ≠ .block) {t : Tree} (ht : t ∈ ts)
    (start : Nat) : block? (start, t) = none := by
  refine Option.eq_none_iff_forall_ne_some.mpr fun range hrange => ?_
  exact h t (mem_parts ht (isPlain_of_block? hrange)) (kind_of_block? hrange)

/-- No block is found unless one stands there. -/
theorem firstBlock_eq_nil (h : ∀ t ∈ parts ts, t.kind ≠ .block) (start : Nat) :
    (placed start ts).findSome? block? = none ∧ firstBlock start ts = [] := by
  induction ts generalizing start with
  | nil => exact ⟨rfl, rfl⟩
  | cons t ts ih =>
      have hnone := block?_eq_none h List.mem_cons_self start
      have hrest : ∀ u ∈ parts ts, u.kind ≠ .block := fun u hu =>
        h u (((List.sublist_cons_self t ts).filter _).subset hu)
      obtain ⟨hblock, hfirst⟩ := ih hrest (start + t.width)
      rw [placed, List.findSome?_cons_of_isNone (by rw [hnone]; rfl), firstBlock, hnone]
      exact ⟨hblock, hfirst⟩

/-- No member is found unless one stands there. -/
theorem members_eq_nil (h : ∀ t ∈ parts ts, t.kind ≠ .property ∧ t.kind ≠ .listItem)
    (start : Nat) : members start ts = [] := by
  rw [members_eq]
  refine List.flatMap_eq_nil_iff.mpr fun x hx => ?_
  obtain ⟨place, t⟩ := x
  have hmem := (bounds_of_mem_placed hx).1
  cases t with
  | leaf token => rfl
  | node kind children =>
      cases kind with
      | property => exact absurd rfl (h _ (mem_parts hmem rfl)).1
      | listItem => exact absurd rfl (h _ (mem_parts hmem rfl)).2
      | _ => rfl

/-! ## Values -/

/-- A scalar takes some text. -/
theorem width_pos_of_scalar? {x : Nat × Tree} {s : Scalar} (h : scalar? x = some s)
    (hshaped : x.2.Shaped) (hleaves : ∀ t ∈ x.2.leaves, t.EmptyIffMark) : 0 < x.2.width := by
  unfold scalar? at h
  split at h
  · rename_i start children
    cases hshaped with
    | scalar begun value =>
        have hfirst := hleaves _ (List.mem_of_head? begun)
        exact Nat.lt_of_lt_of_le (hfirst.width_pos (Grammar.isSynthetic_of_beginsValue value))
          (Tree.width_le_totalWidth begun)
  · cases h

theorem length_scalars_le_parts (start : Nat) (ts : List Tree) :
    ((placed start ts).filterMap scalar?).length ≤ (parts ts).length := by
  induction ts generalizing start with
  | nil => exact Nat.le_refl 0
  | cons t ts ih =>
      have hrest := ih (start + t.width)
      rw [placed]
      cases hs : scalar? (start, t) with
      | none =>
          rw [List.filterMap_cons_none hs]
          exact Nat.le_trans hrest ((List.sublist_cons_self t ts).filter _).length_le
      | some s =>
          have hpart : parts (t :: ts) = t :: parts ts := by
            unfold scalar? at hs
            split at hs
            · rename_i heq
              cases heq
              rfl
            · cases hs
          rw [List.filterMap_cons_some hs, hpart]
          exact Nat.succ_le_succ hrest

/-- The scalars of a list stand apart, as commas stand between them. -/
theorem apart_scalars (h : Separated ts) (hleaves : ∀ t ∈ Tree.allLeaves ts, t.EmptyIffMark)
    (start : Nat) :
    ((placed start ts).filterMap scalar?).Pairwise fun earlier later =>
      earlier.range.stop < later.range.start := by
  have hsingle : ∀ {ts : List Tree} {start : Nat}, (parts ts).length ≤ 1 →
      ((placed start ts).filterMap scalar?).Pairwise fun earlier later =>
        earlier.range.stop < later.range.start := by
    intro ts start hlength
    have hle := Nat.le_trans (length_scalars_le_parts start ts) hlength
    match (placed start ts).filterMap scalar?, hle with
    | [], _ => exact List.Pairwise.nil
    | [s], _ => exact List.pairwise_singleton _ s
  have hplace : ∀ {ts : List Tree} {start : Nat},
      ∀ s ∈ (placed start ts).filterMap scalar?,
        start ≤ s.range.start ∧ s.range.stop ≤ start + Tree.totalWidth ts := by
    intro ts start s hs
    obtain ⟨x, hx, hscalar⟩ := List.mem_filterMap.mp hs
    obtain ⟨-, hstart, hstop⟩ := bounds_of_mem_placed hx
    rw [range_of_scalar? hscalar]
    exact ⟨hstart, hstop⟩
  induction h generalizing start with
  | last single => exact hsingle single
  | @comma front behind comma single separator _ ih =>
      have hcomma : 0 < comma.width := by
        refine (hleaves comma ?_).width_pos (by rw [separator]; rfl)
        rw [Tree.allLeaves_append]
        exact List.mem_append_right _ List.mem_cons_self
      have hbehind : ∀ t ∈ Tree.allLeaves behind, t.EmptyIffMark := fun t ht => by
        refine hleaves t ?_
        rw [Tree.allLeaves_append]
        exact List.mem_append_right _ (List.mem_cons_of_mem comma ht)
      rw [placed_append, List.filterMap_append, List.pairwise_append, placed]
      refine ⟨hsingle single, ih hbehind _, fun earlier hearlier later hlater => ?_⟩
      have hstop := (hplace earlier hearlier).2
      have hstart := (hplace later hlater).1
      rw [Tree.width] at hstart
      omega

/-- What a value holds stands in its tree, and in front of it if it is a list. -/
theorem scattered_value? {x : Nat × Tree} {v : Value} (h : value? x = some v)
    (hshaped : x.2.Shaped) (hleaves : ∀ t ∈ x.2.leaves, t.EmptyIffMark) {outer : TextRange}
    (hstart : outer.start < x.1) (hstop : x.1 + x.2.width ≤ outer.stop) :
    outer.Scattered (v.scalars.map (·.range)) := by
  unfold value? at h
  split at h
  · rename_i start children
    cases h
    have hpos := width_pos_of_scalar? rfl hshaped hleaves
    refine ⟨List.forall_mem_singleton.mpr ?_, List.pairwise_singleton _ _⟩
    dsimp only
    rw [range_scalarOf]
    exact ⟨hstart, Nat.lt_add_of_pos_right hpos, hstop⟩
  · rename_i start children
    cases h
    cases hshaped with
    | @listValue children opening opened scalars separated nested =>
        have hinner : ∀ t ∈ Tree.allLeaves children, t.EmptyIffMark := fun t ht =>
          hleaves t (List.mem_cons_of_mem opening ht)
        constructor
        · refine List.forall_mem_map.mpr fun s hs => ?_
          obtain ⟨y, hy, hscalar⟩ := List.mem_filterMap.mp hs
          rw [placed] at hy
          rcases List.mem_cons.mp hy with rfl | hy
          · cases hscalar
          · obtain ⟨hmem, hplace, hend⟩ := bounds_of_mem_placed hy
            have hpos := width_pos_of_scalar? hscalar (nested _ hmem) fun t ht =>
              hinner t (Tree.mem_allLeaves hmem ht)
            rw [range_of_scalar? hscalar]
            simp only [TextRange.ofWidth, Tree.width, Tree.totalWidth] at hplace hend hstop ⊢
            omega
        · exact List.pairwise_map.mpr (apart_scalars separated hinner _)
  · cases h

/-- The value among trees that stand side by side behind a place. -/
theorem scattered_findSome?_value? {v : Value} (h : (placed start ts).findSome? value? = some v)
    (hshaped : ∀ t ∈ ts, t.Shaped) (hleaves : ∀ t ∈ Tree.allLeaves ts, t.EmptyIffMark)
    {outer : TextRange} (hstart : outer.start < start)
    (hstop : start + Tree.totalWidth ts ≤ outer.stop) :
    outer.Scattered (v.scalars.map (·.range)) := by
  obtain ⟨x, hx, hvalue⟩ := List.exists_of_findSome?_eq_some h
  obtain ⟨hmem, hplace, hend⟩ := bounds_of_mem_placed hx
  exact scattered_value? hvalue (hshaped _ hmem)
    (fun t ht => hleaves t (Tree.mem_allLeaves hmem ht)) (by omega) (by omega)

/-! ## Members -/

/-- Trees side by side make spaced members if each of them does. -/
theorem spaced_members (h : ∀ x ∈ placed start ts, ∀ m ∈ member x.1 x.2, m.Spaced) :
    ∀ m ∈ members start ts, m.Spaced := by
  intro m hm
  rw [members_eq] at hm
  obtain ⟨x, hx, hm⟩ := List.mem_flatMap.mp hm
  exact h x hx m hm

section Members

variable {first : Token} {others : List Tree} {start : Nat}

/-- The token that a property or an item begins with takes some text. -/
theorem width_pos_of_first {kind : SyntaxKind} (hkind : first.kind = kind)
    (htext : kind.isSynthetic = false)
    (hleaves : ∀ t ∈ Tree.allLeaves (.leaf first :: others), t.EmptyIffMark) : 0 < first.width :=
  (hleaves first List.mem_cons_self).width_pos (by rw [hkind, htext])

/-- A property is spaced if its block is. -/
theorem spaced_property (named : first.kind = .ident)
    (content : parts others = [] ∨ ∃ t, parts others = [t] ∧ (t.IsValue ∨ t.kind = .block))
    (nested : ∀ t ∈ others, t.Shaped)
    (hleaves : ∀ t ∈ Tree.allLeaves (.leaf first :: others), t.EmptyIffMark)
    (hinner : ∀ x ∈ placed (start + first.width) others, x.2.kind = .block →
      ∀ m ∈ blockMembers x.1 x.2, m.Spaced) :
    ∀ m ∈ member start (.node .property (.leaf first :: others)), m.Spaced := by
  have hkey := width_pos_of_first named rfl hleaves
  have hothers : ∀ t ∈ Tree.allLeaves others, t.EmptyIffMark := fun t ht =>
    hleaves t (List.mem_cons_of_mem first ht)
  have hwidth : Tree.totalWidth (.leaf first :: others) = first.width + Tree.totalWidth others :=
    rfl
  have hblock : firstBlock start (.leaf first :: others) =
      firstBlock (start + first.width) others := rfl
  rw [member, hblock, hwidth]
  split
  · refine List.forall_mem_singleton.mpr (.property ?_ (fun v hv => ?_) (fun m hm => ?_) ?_ ?_)
    · exact Nat.lt_add_of_pos_right (Nat.add_pos_left hkey _)
    · have hvalue : (placed (start + first.width) others).findSome? value? = some v := hv
      exact scattered_findSome?_value? hvalue nested hothers
        (Nat.lt_add_of_pos_right hkey) (Nat.le_of_eq (Nat.add_assoc _ _ _))
    · have hinside := (spread_firstBlock (start + first.width) others).inside m.range
        (List.mem_map_of_mem hm)
      exact Nat.lt_of_lt_of_le (Nat.lt_add_of_pos_right hkey) hinside.start
    · rcases content with hnone | ⟨t, ht, hvalue | hblock⟩
      · refine .inl (findSome?_value?_eq_none ?_ start)
        rw [parts_leaf, hnone]
        exact List.forall_mem_nil _
      · refine .inr (firstBlock_eq_nil ?_ start)
        rw [parts_leaf, ht]
        exact List.forall_mem_singleton.mpr (ne_of_isValue hvalue).1
      · refine .inl (findSome?_value?_eq_none ?_ start)
        rw [parts_leaf, ht]
        exact List.forall_mem_singleton.mpr fun hvalue => (ne_of_isValue hvalue).1 hblock
    · intro m hm
      rcases firstBlock_eq (start + first.width) others with hnone | ⟨x, hx, hkind, hfirst⟩
      · exact absurd (hnone ▸ hm) List.not_mem_nil
      · exact hinner x hx hkind m (hfirst ▸ hm)
  · exact List.forall_mem_nil _

/-- An item is spaced if its members are. -/
theorem spaced_listItem (marked : first.kind = .dash)
    (content : (∃ t, parts others = [t] ∧ t.IsValue) ∨ ∀ t ∈ parts others, t.kind = .property)
    (nested : ∀ t ∈ others, t.Shaped)
    (hleaves : ∀ t ∈ Tree.allLeaves (.leaf first :: others), t.EmptyIffMark)
    (hinner : ∀ m ∈ members (start + first.width) others, m.Spaced) :
    ∀ m ∈ member start (.node .listItem (.leaf first :: others)), m.Spaced := by
  have hdash := width_pos_of_first marked rfl hleaves
  have hothers : ∀ t ∈ Tree.allLeaves others, t.EmptyIffMark := fun t ht =>
    hleaves t (List.mem_cons_of_mem first ht)
  have hmembers : members start (.leaf first :: others) = members (start + first.width) others :=
    rfl
  have hwidth : Tree.totalWidth (.leaf first :: others) = first.width + Tree.totalWidth others :=
    rfl
  rw [member, hmembers, hwidth]
  refine List.forall_mem_singleton.mpr (.item ?_ (fun v hv => ?_) (fun m hm => ?_) ?_ hinner)
  · exact Nat.lt_add_of_pos_right (Nat.add_pos_left hdash _)
  · have hvalue : (placed (start + first.width) others).findSome? value? = some v := hv
    exact scattered_findSome?_value? hvalue nested hothers
      (Nat.lt_add_of_pos_right hdash) (Nat.le_of_eq (Nat.add_assoc _ _ _))
  · have hinside := (spread_members (start + first.width) others).inside m.range
      (List.mem_map_of_mem hm)
    exact Nat.lt_of_lt_of_le (Nat.lt_add_of_pos_right hdash) hinside.start
  · rcases content with ⟨t, ht, hvalue⟩ | hproperties
    · refine .inr (members_eq_nil ?_ _)
      rw [ht]
      exact List.forall_mem_singleton.mpr (ne_of_isValue hvalue).2
    · refine .inl (findSome?_value?_eq_none ?_ start)
      rw [parts_leaf]
      exact fun t ht hvalue => (ne_of_isValue hvalue).2.1 (hproperties t ht)

end Members

/-- A tree of the shape of the grammar makes members that are spaced, itself or as a block. -/
theorem spaced_member {t : Tree} (ht : t.Shaped) (hleaves : ∀ token ∈ t.leaves, token.EmptyIffMark)
    (start : Nat) :
    (∀ m ∈ member start t, m.Spaced) ∧
      (t.kind = .block → ∀ m ∈ blockMembers start t, m.Spaced) := by
  induction ht generalizing start with
  | leaf token => exact ⟨List.forall_mem_nil _, fun _ => List.forall_mem_nil _⟩
  | error children => exact ⟨List.forall_mem_nil _, fun h => by cases h⟩
  | scalar => exact ⟨List.forall_mem_nil _, fun h => by cases h⟩
  | listValue => exact ⟨List.forall_mem_nil _, fun h => by cases h⟩
  | @property others key named content nested ih =>
      refine ⟨spaced_property named content nested hleaves fun x hx => ?_, fun h => by cases h⟩
      have hmem := (bounds_of_mem_placed hx).1
      exact (ih x.2 hmem (fun token htoken => hleaves token
        (List.mem_cons_of_mem key (Tree.mem_allLeaves hmem htoken))) x.1).2
  | @listItem others dash marked content nested ih =>
      refine ⟨spaced_listItem marked content nested hleaves
        (spaced_members fun x hx => ?_),
        fun h => by cases h⟩
      have hmem := (bounds_of_mem_placed hx).1
      exact (ih x.2 hmem (fun token htoken => hleaves token
        (List.mem_cons_of_mem dash (Tree.mem_allLeaves hmem htoken))) x.1).1
  | @block children _ nested ih =>
      refine ⟨List.forall_mem_nil _, fun _ => spaced_members fun x hx => ?_⟩
      have hmem := (bounds_of_mem_placed hx).1
      exact (ih x.2 hmem (fun token htoken =>
        hleaves token (Tree.mem_allLeaves hmem htoken)) x.1).1

/-- However broken a text is, the members of its outline are spaced. -/
theorem spaced_ofText (completion : Bool) (text : String) :
    ∀ m ∈ ofTree (Parse.ofText completion text).tree, m.Spaced := by
  have hshaped := (@Grammar.makes_fileMembers (byteWidth text.toList) 0
    (tokenize completion text).tokens).shaped
  have hleaves : (Parse.ofText completion text).tree.leaves = (tokenize completion text).tokens :=
    Parse.leaves_underSignal .never completion text
  have hmarks : ∀ t ∈ (Parse.ofText completion text).tree.leaves, t.EmptyIffMark := fun t ht =>
    emptyIffMark_tokenize (hleaves ▸ ht)
  refine spaced_members fun x hx => ?_
  have hmem := (bounds_of_mem_placed hx).1
  exact (spaced_member (hshaped _ hmem)
    (fun t ht => hmarks t (Tree.mem_allLeaves hmem ht)) x.1).1

end Outline
end ModelWorkspace
