import ModelWorkspace.Proofs.Element.Conformance
import ModelWorkspace.Proofs.Element.Extent

/-!
# Elements are nested where they are written

What is written within something lies in its range, and what is written side by side does not
overlap.  So it is with the members of an outline (`Outline.nested_member`), because trees that
stand side by side stand one behind the other.  Elements take their ranges from members: those
of an element are made of its members in the order in which they are written, so each new one
stands behind all that have been added before (`Lowering.Placing`).
-/

namespace ModelWorkspace

/-! ## Ranges -/

/-- A range lies within another one. -/
structure TextRange.Inside (range outer : TextRange) : Prop where
  start : outer.start ≤ range.start
  ordered : range.start ≤ range.stop
  stop : range.stop ≤ outer.stop

/-- Ranges stand one behind the other within another one. -/
structure TextRange.Spread (outer : TextRange) (ranges : List TextRange) : Prop where
  inside : ∀ range ∈ ranges, range.Inside outer
  apart : ranges.Pairwise fun earlier later => earlier.stop ≤ later.start

namespace TextRange

variable {range outer larger : TextRange} {ranges others : List TextRange}

theorem Inside.trans (h : range.Inside outer) (houter : outer.Inside larger) :
    range.Inside larger :=
  ⟨Nat.le_trans houter.start h.start, h.ordered, Nat.le_trans h.stop houter.stop⟩

theorem inside_ofWidth {start width start' width' : Nat} (hstart : start ≤ start')
    (hstop : start' + width' ≤ start + width) :
    (ofWidth start' width').Inside (ofWidth start width) :=
  ⟨hstart, Nat.le_add_right _ _, hstop⟩

theorem spread_nil (outer : TextRange) : outer.Spread [] :=
  ⟨List.forall_mem_nil _, List.Pairwise.nil⟩

theorem spread_singleton (h : range.Inside outer) : outer.Spread [range] :=
  ⟨List.forall_mem_singleton.mpr h, List.pairwise_singleton _ _⟩

theorem Spread.mono (h : outer.Spread ranges) (houter : outer.Inside larger) :
    larger.Spread ranges :=
  ⟨fun range hrange => (h.inside range hrange).trans houter, h.apart⟩

theorem Spread.append (h : outer.Spread ranges) (hothers : outer.Spread others)
    (hbehind : ∀ earlier ∈ ranges, ∀ later ∈ others, earlier.stop ≤ later.start) :
    outer.Spread (ranges ++ others) :=
  ⟨List.forall_mem_append.mpr ⟨h.inside, hothers.inside⟩,
    List.pairwise_append.mpr ⟨h.apart, hothers.apart, hbehind⟩⟩

end TextRange

/-! ## Members -/

/-- The range of a member. -/
def Member.range : Member → TextRange
  | .property range .. => range
  | .item range .. => range

/-- The scalars of a value lie within a range. -/
def Value.Inside (v : Value) (outer : TextRange) : Prop :=
  ∀ s ∈ v.scalars, s.range.Inside outer

/-- The values and the members of a member lie within it, one member behind the other, on every
level. -/
inductive Member.Nested : Member → Prop
  | property {range : TextRange} {key : String} {keyRange : TextRange} {value : Option Value}
      {block : Option TextRange} {members : List Member}
      (ordered : range.start ≤ range.stop)
      (valued : ∀ v ∈ value, v.Inside range)
      (spread : range.Spread (members.map Member.range))
      (nested : ∀ m ∈ members, Nested m) :
      Nested (.property range key keyRange value block members)
  | item {range : TextRange} {value : Option Value} {members : List Member}
      (ordered : range.start ≤ range.stop)
      (valued : ∀ v ∈ value, v.Inside range)
      (spread : range.Spread (members.map Member.range))
      (nested : ∀ m ∈ members, Nested m) : Nested (.item range value members)

namespace Outline

variable {start : Nat} {ts : List Tree}

/-- A tree is a member where it stands, or it is none. -/
theorem member_cases (start : Nat) (t : Tree) :
    member start t = [] ∨ ∃ m, member start t = [m] ∧ m.range = rangeAt start t := by
  cases t with
  | leaf token => exact .inl rfl
  | node kind children =>
      cases kind with
      | property =>
          rw [member]
          split
          · exact .inr ⟨_, rfl, rfl⟩
          · exact .inl rfl
      | listItem => exact .inr ⟨_, rfl, rfl⟩
      | _ => exact .inl rfl

theorem spread_members (start : Nat) (ts : List Tree) :
    (TextRange.ofWidth start (Tree.totalWidth ts)).Spread
      ((members start ts).map Member.range) := by
  induction ts generalizing start with
  | nil => exact TextRange.spread_nil _
  | cons t ts ih =>
      have hothers : (TextRange.ofWidth start (Tree.totalWidth (t :: ts))).Spread
          ((members (start + t.width) ts).map Member.range) :=
        (ih (start + t.width)).mono
          (TextRange.inside_ofWidth (Nat.le_add_right _ _) (by simp [Tree.totalWidth]; omega))
      rw [members, List.map_append]
      rcases member_cases start t with hnone | ⟨m, hm, hrange⟩
      · rw [hnone]
        exact hothers
      · rw [hm, List.map_singleton, hrange]
        refine (TextRange.spread_singleton ?_).append hothers ?_
        · exact TextRange.inside_ofWidth (Nat.le_refl _) (by simp [Tree.totalWidth])
        · intro earlier hearlier later hlater
          rw [List.mem_singleton.mp hearlier]
          exact ((ih (start + t.width)).inside later hlater).start

theorem spread_firstBlock (start : Nat) (ts : List Tree) :
    (TextRange.ofWidth start (Tree.totalWidth ts)).Spread
      ((firstBlock start ts).map Member.range) := by
  rcases firstBlock_eq start ts with hnone | ⟨⟨place, t⟩, hx, -, hfirst⟩
  · rw [hnone]
    exact TextRange.spread_nil _
  · obtain ⟨-, hstart, hstop⟩ := bounds_of_mem_placed hx
    rw [hfirst]
    cases t with
    | leaf token => exact TextRange.spread_nil _
    | node kind children =>
        exact (spread_members place children).mono (TextRange.inside_ofWidth hstart hstop)

/-- The scalars of a value lie where its tree stands. -/
theorem inside_of_value? {x : Nat × Tree} {v : Value} (h : value? x = some v) :
    v.Inside (rangeAt x.1 x.2) := by
  unfold value? at h
  split at h
  · cases h
    refine List.forall_mem_singleton.mpr ?_
    rw [range_scalarOf]
    exact TextRange.inside_ofWidth (Nat.le_refl _) (Nat.le_refl _)
  · cases h
    intro s hs
    obtain ⟨y, hy, hscalar⟩ := List.mem_filterMap.mp hs
    obtain ⟨-, hstart, hstop⟩ := bounds_of_mem_placed hy
    rw [range_of_scalar? hscalar]
    exact TextRange.inside_ofWidth hstart hstop
  · cases h

theorem inside_of_findSome?_value? {v : Value}
    (h : (placed start ts).findSome? value? = some v) :
    v.Inside (TextRange.ofWidth start (Tree.totalWidth ts)) := by
  obtain ⟨x, hx, hvalue⟩ := List.exists_of_findSome?_eq_some h
  obtain ⟨-, hstart, hstop⟩ := bounds_of_mem_placed hx
  exact fun s hs => (inside_of_value? hvalue s hs).trans (TextRange.inside_ofWidth hstart hstop)

mutual

theorem nested_member (start : Nat) : (t : Tree) → ∀ m ∈ member start t, m.Nested
  | .leaf _ => List.forall_mem_nil _
  | .node kind children => by
      have hvalued : ∀ v ∈ (placed start children).findSome? value?,
          v.Inside (TextRange.ofWidth start (Tree.totalWidth children)) :=
        fun v hv => inside_of_findSome?_value? hv
      have hordered := Nat.le_add_right start (Tree.totalWidth children)
      have hmembers := nested_members start children
      have hblock := nested_firstBlock start children
      cases kind with
      | property =>
          rw [member]
          split
          · exact List.forall_mem_singleton.mpr
              (.property hordered hvalued (spread_firstBlock start children) hblock)
          · exact List.forall_mem_nil _
      | listItem =>
          exact List.forall_mem_singleton.mpr
            (.item hordered hvalued (spread_members start children) hmembers)
      | _ => exact List.forall_mem_nil _

theorem nested_members (start : Nat) : (ts : List Tree) → ∀ m ∈ members start ts, m.Nested
  | [] => List.forall_mem_nil _
  | t :: ts =>
      List.forall_mem_append.mpr ⟨nested_member start t, nested_members (start + t.width) ts⟩

theorem nested_firstBlock (start : Nat) : (ts : List Tree) → ∀ m ∈ firstBlock start ts, m.Nested
  | [] => List.forall_mem_nil _
  | .leaf t :: ts => nested_firstBlock (start + (Tree.leaf t).width) ts
  | .node kind children :: ts => by
      have hblock := nested_members start children
      rw [firstBlock]
      split
      · exact hblock
      · exact nested_firstBlock (start + (Tree.node kind children).width) ts

end

end Outline

/-! ## Elements -/

namespace Element

/-- What an element keeps lies in its range: the place of its identifier, its references, and
the elements directly nested in it, one behind the other. -/
structure IsNested (e : Element) : Prop where
  declared : ∀ range ∈ e.idRange, range.Inside e.range
  referred : ∀ site ∈ e.references, site.range.Inside e.range
  spread : e.range.Spread (e.childElements.map fun child => child.2.range)

theorem ranges_stepsOf (feature : String) (elements : List Element) :
    (stepsOf ⟨feature, elements⟩).map (fun child => child.2.range) = elements.map (·.range) := by
  unfold stepsOf
  rw [List.map_map]
  conv_rhs => rw [← List.zipIdx_map_fst 0 elements, List.map_map]
  rfl

/-- The ranges of the elements nested directly in an element with one more containment. -/
theorem ranges_addContainment (e : Element) (feature : String) (elements : List Element) :
    (childElements { e with children := e.children ++ [⟨feature, elements⟩] }).map
        (fun child => child.2.range) =
      e.childElements.map (fun child => child.2.range) ++ elements.map (·.range) := by
  rw [← ranges_stepsOf feature]
  simp [childElements]

end Element

namespace Lowering

/-- An element that is being built: what is nested in it so far stands in front of a place. -/
structure Placing (e : Element) (place : Nat) : Prop where
  nested : e.All Element.IsNested
  before : ∀ range ∈ e.childElements.map fun child => child.2.range, range.stop ≤ place

theorem Placing.mono {e : Element} {place later : Nat} (h : Placing e place)
    (hle : place ≤ later) : Placing e later :=
  ⟨h.nested, fun range hrange => Nat.le_trans (h.before range hrange) hle⟩

theorem placing_start (kind : ElementKind) (range : TextRange) :
    Placing { kind := kind, range := range } range.start where
  nested := .intro ⟨(fun _ hrange => by cases hrange), List.forall_mem_nil _,
    TextRange.spread_nil range⟩ (List.forall_mem_nil _)
  before := List.forall_mem_nil _

/-- Adding a member that stands behind a place leaves the element nested in front of the end of
the member; the elements that the member of a list holds stand where it does. -/
structure LowersNested (m : Member) : Prop where
  addMember : ∀ {e place}, Placing e place → place ≤ m.range.start →
    m.range.Inside e.range → ∀ seen,
    Placing (addMember e seen m).1 m.range.stop ∧ (addMember e seen m).1.range = e.range
  itemElement : ∀ kind, m.range.Spread ((itemElement kind m).1.map (·.range)) ∧
    ∀ child ∈ (itemElement kind m).1, child.All Element.IsNested

theorem nested_addMembers {ms : List Member} (hms : ∀ m ∈ ms, LowersNested m) {e : Element}
    {place : Nat} (h : Placing e place) (hspread : e.range.Spread (ms.map Member.range))
    (hplace : ∀ m ∈ ms, place ≤ m.range.start) (seen : List String) :
    (addMembers e seen ms).1.All Element.IsNested ∧ (addMembers e seen ms).1.range = e.range := by
  induction ms generalizing e place seen with
  | nil => exact ⟨h.nested, rfl⟩
  | cons m rest ih =>
      obtain ⟨hm, hrest⟩ := List.forall_mem_cons.mp hms
      obtain ⟨hinside, hinsideRest⟩ := List.forall_mem_cons.mp hspread.inside
      obtain ⟨hbehind, hapart⟩ := List.pairwise_cons.mp hspread.apart
      obtain ⟨hadded, hrange⟩ := hm.addMember h (hplace m List.mem_cons_self) hinside seen
      rw [addMembers, ← hrange]
      refine ih hrest hadded ⟨?_, hapart⟩ (fun other hother => ?_) _
      · rw [hrange]
        exact hinsideRest
      · exact hbehind _ (List.mem_map_of_mem hother)

theorem nested_itemElements {ms : List Member} (hms : ∀ m ∈ ms, LowersNested m)
    {outer : TextRange} (hspread : outer.Spread (ms.map Member.range)) (kind : ElementKind) :
    outer.Spread ((itemElements kind ms).1.map (·.range)) ∧
      (∀ child ∈ (itemElements kind ms).1, ∃ m ∈ ms, child.range.Inside m.range) ∧
      ∀ child ∈ (itemElements kind ms).1, child.All Element.IsNested := by
  induction ms with
  | nil => exact ⟨TextRange.spread_nil _, List.forall_mem_nil _, List.forall_mem_nil _⟩
  | cons m rest ih =>
      obtain ⟨hm, hrest⟩ := List.forall_mem_cons.mp hms
      obtain ⟨hinside, hinsideRest⟩ := List.forall_mem_cons.mp hspread.inside
      obtain ⟨hbehind, hapart⟩ := List.pairwise_cons.mp hspread.apart
      obtain ⟨hfirst, hnested⟩ := hm.itemElement kind
      obtain ⟨hothers, hwithin, hnestedRest⟩ := ih hrest ⟨hinsideRest, hapart⟩
      have hfirstInside : ∀ child ∈ (itemElement kind m).1, child.range.Inside m.range :=
        fun child hchild => hfirst.inside _ (List.mem_map_of_mem hchild)
      rw [itemElements, List.map_append]
      refine ⟨(hfirst.mono hinside).append hothers ?_, ?_,
        List.forall_mem_append.mpr ⟨hnested, hnestedRest⟩⟩
      · -- an element of one item stands in front of those of the items behind it
        intro earlier hearlier later hlater
        obtain ⟨child, hchild, rfl⟩ := List.mem_map.mp hlater
        obtain ⟨other, hother, hotherInside⟩ := hwithin child hchild
        have hle := hbehind _ (List.mem_map_of_mem hother)
        exact Nat.le_trans (hfirst.inside earlier hearlier).stop
          (Nat.le_trans hle hotherInside.start)
      · refine List.forall_mem_append.mpr ⟨fun child hchild => ?_, fun child hchild => ?_⟩
        · exact ⟨m, List.mem_cons_self, hfirstInside child hchild⟩
        · obtain ⟨other, hother, hotherInside⟩ := hwithin child hchild
          exact ⟨other, List.mem_cons_of_mem m hother, hotherInside⟩

theorem inside_of_mem_referenceScalars {value : Option Value} {members : List Member}
    {outer : TextRange} (hvalue : ∀ v ∈ value, v.Inside outer)
    (hspread : outer.Spread (members.map Member.range)) (hmembers : ∀ m ∈ members, m.Nested)
    {s : Scalar} (hs : s ∈ referenceScalars value members) : s.range.Inside outer := by
  rcases exists_of_mem_referenceScalars hs with ⟨v, hv, hs⟩ | ⟨_, v, _, hm, hs⟩
  · exact hvalue v hv s hs
  · cases hmembers _ hm with
    | item _ valued => exact (valued v rfl s hs).trans (hspread.inside _ (List.mem_map_of_mem hm))

theorem range_of_mem_sitesOf {spec : ReferenceSpec} {scalars : List Scalar}
    {site : ReferenceSite} (h : site ∈ sitesOf spec scalars) :
    ∃ s ∈ scalars, site.range = s.range := by
  obtain ⟨⟨s, index⟩, hs, rfl⟩ := List.mem_map.mp h
  exact ⟨s, List.mem_of_getElem? (List.mem_zipIdx_iff_getElem?.mp hs), rfl⟩

theorem placing_declareId {e : Element} {place : Nat} (h : Placing e place) {entry : Entry}
    (hvalue : ∀ v ∈ entry.value, v.Inside e.range) :
    Placing (declareId e entry).1 place ∧ (declareId e entry).1.range = e.range := by
  obtain ⟨⟨hhere, hnested⟩, hbefore⟩ := h
  unfold declareId
  split
  · rename_i s hs
    have hdeclared : s.range.Inside e.range := hvalue _ hs s List.mem_cons_self
    exact ⟨⟨.intro { hhere with declared := fun _ heq => Option.some.inj heq ▸ hdeclared } hnested,
      hbefore⟩, rfl⟩
  · exact ⟨⟨.intro hhere hnested, hbefore⟩, rfl⟩

theorem placing_addPlain {e : Element} {place : Nat} (h : Placing e place) (entry : Entry) :
    Placing (addPlain e entry) place ∧ (addPlain e entry).range = e.range := by
  obtain ⟨⟨hhere, hnested⟩, hbefore⟩ := h
  unfold addPlain
  split <;> exact ⟨⟨.intro { hhere with } hnested, hbefore⟩, rfl⟩

theorem placing_addReferences {e : Element} {place : Nat} (h : Placing e place) {entry : Entry}
    (hscalars : ∀ s ∈ referenceScalars entry.value entry.members, s.range.Inside e.range)
    (spec : ReferenceSpec) :
    Placing (addReferences e spec entry).1 place ∧
      (addReferences e spec entry).1.range = e.range := by
  obtain ⟨⟨hhere, hnested⟩, hbefore⟩ := h
  refine ⟨⟨.intro { hhere with referred := ?_ } hnested, hbefore⟩, rfl⟩
  refine List.forall_mem_append.mpr ⟨hhere.referred, fun site hsite => ?_⟩
  obtain ⟨s, hs, hrange⟩ := range_of_mem_sitesOf hsite
  rw [hrange]
  refine hscalars s ?_
  split at hs
  · exact hs
  · exact List.mem_of_mem_take hs

/-- Elements that stand within a range behind the place are nested in the element. -/
theorem placing_addContainment {e : Element} {place : Nat} (h : Placing e place)
    {range : TextRange} (hplace : place ≤ range.start) (hinside : range.Inside e.range)
    {elements : List Element} (helements : range.Spread (elements.map (·.range)) ∧
      ∀ child ∈ elements, child.All Element.IsNested) (feature : String) :
    Placing { e with children := e.children ++ [⟨feature, elements⟩] } range.stop := by
  obtain ⟨⟨hhere, hnested⟩, hbefore⟩ := h
  obtain ⟨hspread, hall⟩ := helements
  refine ⟨.intro { hhere with spread := ?_ } ?_, ?_⟩
  · rw [Element.ranges_addContainment]
    refine hhere.spread.append (hspread.mono hinside) fun earlier hearlier later hlater => ?_
    exact Nat.le_trans (hbefore earlier hearlier)
      (Nat.le_trans hplace (hspread.inside later hlater).start)
  · exact List.forall_mem_append.mpr ⟨hnested, List.forall_mem_singleton.mpr hall⟩
  · rw [Element.ranges_addContainment]
    refine List.forall_mem_append.mpr ⟨fun earlier hearlier => ?_, fun later hlater => ?_⟩
    · have hle := hbefore earlier hearlier
      exact Nat.le_trans hle (Nat.le_trans hplace hinside.ordered)
    · exact (hspread.inside later hlater).stop

/-- An element that is made of the members in a range has that range. -/
theorem nested_block {range : TextRange} {members : List Member}
    (hmembers : ∀ m ∈ members, LowersNested m)
    (hspread : range.Spread (members.map Member.range)) (kind : ElementKind) :
    (addMembers { kind := kind, range := range } [] members).1.All Element.IsNested ∧
      (addMembers { kind := kind, range := range } [] members).1.range = range :=
  nested_addMembers hmembers (placing_start kind range) hspread
    (fun _ hm => (hspread.inside _ (List.mem_map_of_mem hm)).start) []

theorem spread_block {range : TextRange} {members : List Member}
    (ordered : range.start ≤ range.stop) (hmembers : ∀ m ∈ members, LowersNested m)
    (hspread : range.Spread (members.map Member.range)) (kind : ElementKind) :
    let child := (addMembers { kind := kind, range := range } [] members).1
    range.Spread ([child].map (·.range)) ∧ ∀ e ∈ [child], e.All Element.IsNested := by
  obtain ⟨hall, hrange⟩ := nested_block hmembers hspread kind
  have hself : range.Inside range := ⟨Nat.le_refl _, ordered, Nat.le_refl _⟩
  refine ⟨?_, List.forall_mem_singleton.mpr hall⟩
  rw [List.map_singleton, hrange]
  exact TextRange.spread_singleton hself

/-- Nothing is nested where nothing is made. -/
theorem spread_nothing (range : TextRange) :
    range.Spread (([] : List Element).map (·.range)) ∧
      ∀ e ∈ ([] : List Element), e.All Element.IsNested :=
  ⟨TextRange.spread_nil range, List.forall_mem_nil _⟩

/-- The elements that are nested under a feature stand within the property. -/
theorem Nests.spread {spec : ContainmentSpec} {range : TextRange} {entry : Entry}
    {made : List Element × List SyntaxError} (h : Nests spec range entry made)
    (ordered : range.start ≤ range.stop) (hmembers : ∀ m ∈ entry.members, LowersNested m)
    (hspread : range.Spread (entry.members.map Member.range)) :
    range.Spread (made.1.map (·.range)) ∧ ∀ child ∈ made.1, child.All Element.IsNested := by
  cases h with
  | noList many valued => exact spread_nothing range
  | list many listed =>
      obtain ⟨hitems, -, hall⟩ := nested_itemElements hmembers hspread spec.kind
      exact ⟨hitems, hall⟩
  | block single written => exact spread_block ordered hmembers hspread spec.kind
  | noBlock single missing => exact spread_nothing range

theorem lowersNested {m : Member} (h : m.Nested) : LowersNested m := by
  induction h with
  | @item range value members ordered valued spread nested ih =>
      refine ⟨fun he hplace hinside _ => ?_, fun kind => ?_⟩
      · exact ⟨he.mono (Nat.le_trans hplace hinside.ordered), rfl⟩
      · cases value with
        | some v => exact spread_nothing range
        | none => exact spread_block ordered ih spread kind
  | @property range key keyRange value block members ordered valued spread nested ih =>
      refine ⟨fun {e place} he hplace hinside seen => ?_, fun kind => spread_nothing range⟩
      have hlater : Placing e range.stop := he.mono (Nat.le_trans hplace hinside.ordered)
      have hvalue : ∀ v ∈ value, v.Inside e.range :=
        fun v hv s hs => (valued v hv s hs).trans hinside
      obtain ⟨added, hadded, hadds⟩ := exists_adds e seen range key keyRange value block members
      rw [hadded]
      cases hadds with
      | again used => exact ⟨hlater, rfl⟩
      | identifies new declares => exact placing_declareId hlater hvalue
      | contains new other known nests =>
          have hmade := nests.spread ordered ih spread
          exact ⟨placing_addContainment he hplace hinside hmade key, rfl⟩
      | refers new other nothingNested known =>
          refine placing_addReferences hlater (fun s hs => ?_) _
          exact (inside_of_mem_referenceScalars valued spread nested hs).trans hinside
      | plain new other nothingNested noReference => exact placing_addPlain hlater _

/-- The root is nested where the first property at the top of a file is. -/
theorem nested_root {ms : List Member} (hms : ∀ m ∈ ms, m.Nested) {e : Element}
    (h : (root ms).1 = some e) : e.All Element.IsNested := by
  obtain ⟨range, key, keyRange, value, block, members, kind, hmem, -, hmade⟩ := exists_of_root h
  cases hms _ hmem with
  | property ordered valued spread nested =>
      rcases hmade with rfl | rfl
      · exact (placing_start kind range).nested
      · exact (nested_block (fun m hm => lowersNested (nested m hm)) spread kind).1

end Lowering

/-! ## Documents -/

/-- However broken a text is, the root that is made of it is of a kind that stands there; every
element in it conforms to the schema, and keeps what is nested in it in its range, one element
behind the other; and every range that the document keeps is one of the text. -/
theorem Document.wellFormed_root {text : String} {root : Element}
    (h : (ofText text).root = some root) :
    let width := byteWidth text.toList
    root.kind.isRoot = true ∧
      (∀ described ∈ root.descendants, described.2.Conforms ∧ described.2.IsNested) ∧
      root.Within width ∧
      (∀ t ∈ (ofText text).tokens, t.range.Within width) ∧
      (∀ e ∈ (ofText text).lexErrors, e.range.Within width) ∧
      ∀ e ∈ (ofText text).syntaxErrors, e.range.Within width := by
  have hlowered := isLowered_root h
  obtain ⟨htokens, hroot, hlexErrors, hsyntaxErrors⟩ := within_ofText text
  have hmembers : ∀ m ∈ Outline.ofTree (Parse.ofText false text).tree, m.Nested :=
    Outline.nested_members 0 _
  have hnested : root.All Element.IsNested := Lowering.nested_root hmembers h
  exact ⟨hlowered.isTyped.1, fun described hmem =>
    ⟨hlowered.conforms described hmem, hnested.of_mem_descendants hmem⟩, hroot root h, htokens,
    hlexErrors, hsyntaxErrors⟩

/-- A mapping with a key written twice, two names where one is asked for, and an item that is
cut off. -/
theorem Document.wellFormed_root_broken :
    ∃ root, (ofText "mapping:\n  id: M\n  id: N\n  target:\n    entity: [A, B]\n  sources:\n    - ").root
        = some root ∧
      ∀ described ∈ root.descendants, described.2.Conforms ∧ described.2.IsNested := by
  have hsome : (ofText
      "mapping:\n  id: M\n  id: N\n  target:\n    entity: [A, B]\n  sources:\n    - ").root.isSome =
        true := by
    decide +kernel
  obtain ⟨root, hroot⟩ := Option.isSome_iff_exists.mp hsome
  exact ⟨root, hroot, (wellFormed_root hroot).2.1⟩

end ModelWorkspace
