import ModelWorkspace.Proofs.Element.Sites

/-!
# Where an element can be pointed at

An element begins with its key or its dash, so nothing that is nested in it begins where it does;
and its identifier stands apart from the elements nested in it, since each of these is a property
or an item of its own (`Element.IsSpaced`).  A place at the start of an identifier therefore lies in
the element that declares it, in the elements around it, and in no other
(`Workspace.elementAtOffset_place`).
-/

namespace ModelWorkspace

namespace Element

/-- Where the elements directly nested in an element stand. -/
def childRanges (e : Element) : List TextRange :=
  e.childElements.map fun child => child.2.range

/-- Nothing begins where the element does, and its identifier does not touch what is nested in
it. -/
structure IsSpaced (e : Element) : Prop where
  filled : e.range.start < e.range.stop
  declared : ∀ range ∈ e.idRange, e.range.start < range.start ∧ range.start < range.stop
  behind : ∀ range ∈ e.childRanges, e.range.start < range.start
  clear : ∀ id ∈ e.idRange, ∀ range ∈ e.childRanges, range.stop < id.start ∨ id.stop ≤ range.start

end Element

namespace Lowering

/-- An element that is being built: its identifier, too, stands in front of a place. -/
structure Spacing (e : Element) (place : Nat) : Prop extends Placing e place where
  spaced : e.All Element.IsSpaced
  declaredBefore : ∀ range ∈ e.idRange, range.stop ≤ place

theorem Spacing.mono {e : Element} {place later : Nat} (h : Spacing e place)
    (hle : place ≤ later) : Spacing e later :=
  ⟨h.toPlacing.mono hle, h.spaced,
    fun range hrange => Nat.le_trans (h.declaredBefore range hrange) hle⟩

theorem spacing_start (kind : ElementKind) {range : TextRange} (hrange : range.start < range.stop) :
    Spacing { kind := kind, range := range } range.start where
  toPlacing := placing_start kind range
  spaced := .intro ⟨hrange, nofun, List.forall_mem_nil _, nofun⟩ (List.forall_mem_nil _)
  declaredBefore := nofun

/-- Adding a member that stands behind a place leaves the element spaced, and the elements that an
item holds are. -/
structure LowersSpaced (m : Member) : Prop extends LowersNested m where
  addSpaced : ∀ {e place}, Spacing e place → place ≤ m.range.start → m.range.Inside e.range →
    e.range.start < m.range.start → ∀ seen, Spacing (Lowering.addMember e seen m).1 m.range.stop
  itemSpaced : ∀ kind, ∀ child ∈ (Lowering.itemElement kind m).1, child.All Element.IsSpaced

theorem spaced_addMembers {ms : List Member} (hms : ∀ m ∈ ms, LowersSpaced m) {e : Element}
    {place : Nat} (h : Spacing e place) (hspread : e.range.Spread (ms.map Member.range))
    (hplace : ∀ m ∈ ms, place ≤ m.range.start) (hbehind : ∀ m ∈ ms, e.range.start < m.range.start)
    (seen : List String) : (addMembers e seen ms).1.All Element.IsSpaced := by
  induction ms generalizing e place seen with
  | nil => exact h.spaced
  | cons m rest ih =>
      obtain ⟨hm, hrest⟩ := List.forall_mem_cons.mp hms
      obtain ⟨hinside, hinsideRest⟩ := List.forall_mem_cons.mp hspread.inside
      obtain ⟨hlater, hapart⟩ := List.pairwise_cons.mp hspread.apart
      obtain ⟨hstart, hstartRest⟩ := List.forall_mem_cons.mp hbehind
      have hfirst := hplace m List.mem_cons_self
      obtain ⟨-, hrange⟩ := hm.addMember h.toPlacing hfirst hinside seen
      have hadded := hm.addSpaced h hfirst hinside hstart seen
      rw [addMembers]
      refine ih hrest hadded ⟨?_, hapart⟩ (fun other hother => ?_) ?_ _
      · rw [hrange]
        exact hinsideRest
      · exact hlater _ (List.mem_map_of_mem hother)
      · rw [hrange]
        exact hstartRest

theorem spaced_itemElements {ms : List Member} (hms : ∀ m ∈ ms, LowersSpaced m)
    (kind : ElementKind) : ∀ child ∈ (itemElements kind ms).1, child.All Element.IsSpaced := by
  induction ms with
  | nil => exact List.forall_mem_nil _
  | cons m rest ih =>
      obtain ⟨hm, hrest⟩ := List.forall_mem_cons.mp hms
      exact List.forall_mem_append.mpr ⟨hm.itemSpaced kind, ih hrest⟩

/-- An element that is made of the members in a range is spaced. -/
theorem spaced_block {range : TextRange} {members : List Member}
    (filled : range.start < range.stop) (hmembers : ∀ m ∈ members, LowersSpaced m)
    (hspread : range.Spread (members.map Member.range))
    (hbehind : ∀ m ∈ members, range.start < m.range.start) (kind : ElementKind) :
    (addMembers { kind := kind, range := range } [] members).1.All Element.IsSpaced :=
  spaced_addMembers hmembers (spacing_start kind filled) hspread
    (fun m hm => Nat.le_of_lt (hbehind m hm)) hbehind []

/-- What an element keeps besides its identifier and the elements nested in it does not matter. -/
theorem Spacing.congr {e other : Element} {place : Nat} (h : Spacing e place)
    (hplacing : Placing other place) (hrange : other.range = e.range)
    (hid : other.idRange = e.idRange) (hchildren : other.children = e.children) :
    Spacing other place := by
  obtain ⟨-, ⟨hhere, hnested⟩, hbefore⟩ := h
  have hranges : other.childRanges = e.childRanges := by
    rw [Element.childRanges, Element.childRanges, Element.childElements, Element.childElements,
      hchildren]
  refine ⟨hplacing, .intro ⟨?_, ?_, ?_, ?_⟩ (hchildren ▸ hnested), hid ▸ hbefore⟩
  · exact hrange ▸ hhere.filled
  · rw [hrange, hid]
    exact hhere.declared
  · rw [hrange, hranges]
    exact hhere.behind
  · rw [hid, hranges]
    exact hhere.clear

/-- An identifier that stands behind the place does not touch what is nested so far. -/
theorem spacing_declareId {e : Element} {range : TextRange} (h : Spacing e range.start)
    {entry : Entry} (hinside : range.Inside e.range) (hstart : e.range.start < range.start)
    (hvalue : ∀ v ∈ entry.value, range.Scattered (v.scalars.map (·.range)))
    (hplacing : Placing (declareId e entry).1 range.stop) :
    Spacing (declareId e entry).1 range.stop := by
  have hlater := h.mono hinside.ordered
  unfold declareId at hplacing ⊢
  split at hplacing
  · rename_i s hs
    obtain ⟨hbehind, hfilled, hstop⟩ :=
      (hvalue _ hs).inside s.range (List.mem_map_of_mem List.mem_cons_self)
    obtain ⟨hbefore, ⟨hhere, hnested⟩, -⟩ := h
    refine ⟨hplacing, .intro
      ⟨hhere.filled, fun id hid => ?_, hhere.behind, fun id hid child hchild => ?_⟩
      hnested, fun id hid => ?_⟩ <;> cases hid
    · exact ⟨Nat.lt_trans hstart hbehind, hfilled⟩
    · exact .inl (Nat.lt_of_le_of_lt (hbefore.before child hchild) hbehind)
    · exact hstop
  · exact hlater

/-- Elements that stand within a range behind the place do not touch the identifier. -/
theorem spacing_addContainment {e : Element} {range : TextRange} (h : Spacing e range.start)
    (hinside : range.Inside e.range) (hstart : e.range.start < range.start)
    {elements : List Element} (hspread : range.Spread (elements.map (·.range)))
    (helements : ∀ child ∈ elements, child.All Element.IsSpaced) (feature : String)
    (hplacing : Placing { e with children := e.children ++ [⟨feature, elements⟩] } range.stop) :
    Spacing { e with children := e.children ++ [⟨feature, elements⟩] } range.stop := by
  obtain ⟨-, ⟨hhere, hnested⟩, hbefore⟩ := h
  have hranges : Element.childRanges { e with children := e.children ++ [⟨feature, elements⟩] } =
      e.childRanges ++ elements.map (·.range) := Element.ranges_addContainment e feature elements
  refine ⟨hplacing, .intro ⟨hhere.filled, hhere.declared, ?_, fun id hid => ?_⟩ ?_, fun id hid => ?_⟩
  · rw [hranges]
    refine List.forall_mem_append.mpr ⟨hhere.behind, fun child hchild => ?_⟩
    exact Nat.lt_of_lt_of_le hstart (hspread.inside child hchild).start
  · rw [hranges]
    refine List.forall_mem_append.mpr ⟨hhere.clear id hid, fun child hchild => .inr ?_⟩
    exact Nat.le_trans (hbefore id hid) (hspread.inside child hchild).start
  · exact List.forall_mem_append.mpr ⟨hnested, List.forall_mem_singleton.mpr helements⟩
  · exact Nat.le_trans (hbefore id hid) hinside.ordered

/-- The elements that are nested under a feature are spaced, and stand within the property. -/
theorem Nests.spaced {spec : ContainmentSpec} {range : TextRange} {entry : Entry}
    {made : List Element × List SyntaxError} (h : Nests spec range entry made)
    (filled : range.start < range.stop) (hmembers : ∀ m ∈ entry.members, LowersSpaced m)
    (hspread : range.Spread (entry.members.map Member.range))
    (hbehind : ∀ m ∈ entry.members, range.start < m.range.start) :
    range.Spread (made.1.map (·.range)) ∧ ∀ child ∈ made.1, child.All Element.IsSpaced := by
  have hnested := fun m hm => (hmembers m hm).toLowersNested
  refine ⟨(h.spread (Nat.le_of_lt filled) hnested hspread).1, ?_⟩
  cases h with
  | noList many valued => exact List.forall_mem_nil _
  | list many listed => exact spaced_itemElements hmembers spec.kind
  | block single written =>
      exact List.forall_mem_singleton.mpr (spaced_block filled hmembers hspread hbehind spec.kind)
  | noBlock single missing => exact List.forall_mem_nil _

theorem lowersSpaced {m : Member} (h : m.Spaced) (hnested : m.Nested) : LowersSpaced m := by
  have hlowers := lowersNested hnested
  induction h with
  | @item range value members filled valued behind one nested ih =>
      cases hnested with
      | item ordered _ spread inner =>
          refine ⟨hlowers, fun he hplace hinside _ _ => ?_, fun kind => ?_⟩
          · exact he.mono (Nat.le_trans hplace hinside.ordered)
          · cases value with
            | some v => exact List.forall_mem_nil _
            | none =>
                exact List.forall_mem_singleton.mpr (spaced_block filled
                  (fun m hm => ih m hm (inner m hm) (lowersNested (inner m hm))) spread behind kind)
  | @property range key keyRange value block members filled valued behind one nested ih =>
      cases hnested with
      | property ordered _ spread inner =>
          have hmembers : ∀ m ∈ members, LowersSpaced m := fun m hm =>
            ih m hm (inner m hm) (lowersNested (inner m hm))
          refine ⟨hlowers, fun {e place} he hplace hinside hstart seen => ?_,
            fun kind => List.forall_mem_nil _⟩
          obtain ⟨hplacing, -⟩ := hlowers.addMember he.toPlacing hplace hinside seen
          have hhere := he.mono hplace
          have hlater := hhere.mono hinside.ordered
          obtain ⟨added, hadded, hadds⟩ :=
            exists_adds e seen range key keyRange value block members
          rw [hadded] at hplacing ⊢
          cases hadds with
          | again used => exact hlater
          | identifies new declares => exact spacing_declareId hhere hinside hstart valued hplacing
          | contains new other known nests =>
              obtain ⟨helements, hall⟩ := nests.spaced filled hmembers spread behind
              exact spacing_addContainment hhere hinside hstart helements hall key hplacing
          | refers new other nothingNested known => exact hlater.congr hplacing rfl rfl rfl
          | plain new other nothingNested noReference =>
              unfold addPlain at hplacing ⊢
              cases value <;> exact hlater.congr hplacing rfl rfl rfl

/-- The root is spaced where the first property at the top of a file is. -/
theorem spaced_root {ms : List Member} (hms : ∀ m ∈ ms, m.Spaced) (hnested : ∀ m ∈ ms, m.Nested)
    {e : Element} (h : (root ms).1 = some e) : e.All Element.IsSpaced := by
  obtain ⟨range, key, keyRange, value, block, members, kind, hmem, -, hmade⟩ := exists_of_root h
  cases hms _ hmem with
  | property filled valued behind one nested =>
      cases hnested _ hmem with
      | property _ _ spread inner =>
          rcases hmade with rfl | rfl
          · exact (spacing_start kind filled).spaced
          · exact spaced_block filled
              (fun m hm => lowersSpaced (nested m hm) (inner m hm)) spread behind kind

end Lowering

namespace Element

/-- The elements of a document are nested in each other and spaced. -/
theorem spaced_ofText {text : String} {root : Element}
    (h : (Document.ofText text).root = some root) : root.All IsNested ∧ root.All IsSpaced :=
  have hnested : ∀ m ∈ Outline.ofTree (Parse.ofText false text).tree, m.Nested :=
    Outline.nested_members 0 _
  ⟨Lowering.nested_root hnested h, Lowering.spaced_root (Outline.spaced_ofText false text) hnested h⟩

/-! ## The deepest element at a place -/

theorem mem_childRanges {e child : Element} {c : Containment Element} (hc : c ∈ e.children)
    (hchild : child ∈ c.elements) : child.range ∈ e.childRanges := by
  obtain ⟨index, hget⟩ := List.mem_iff_getElem?.mp hchild
  have hstep : ((⟨c.feature, index⟩ : PathStep), child) ∈ e.childElements :=
    List.mem_flatMap.mpr ⟨c, hc, List.mem_map.mpr
      ⟨(child, index), List.mem_zipIdx_iff_getElem?.mpr hget, rfl⟩⟩
  exact List.mem_map_of_mem hstep

/-- What is listed below an element stands within it. -/
theorem within_of_mem_descendantsFrom {e : Element} (h : e.All IsNested) {path : ElementPath}
    {described : ElementPath × Element} (hmem : described ∈ descendantsFrom path e) :
    e.range.start ≤ described.2.range.start ∧ described.2.range.stop ≤ e.range.stop := by
  induction h generalizing path with
  | intro here nested ih =>
      rcases mem_descendantsFrom_iff.mp hmem with rfl | ⟨c, hc, index, child, hget, hbelow⟩
      · exact ⟨Nat.le_refl _, Nat.le_refl _⟩
      · have hchild := List.mem_of_getElem? hget
        obtain ⟨hstart, hstop⟩ := ih c hc child hchild hbelow
        have hinside := here.spread.inside _ (mem_childRanges hc hchild)
        exact ⟨Nat.le_trans hinside.start hstart, Nat.le_trans hstop hinside.stop⟩

/-- An element that is listed behind another one is nested in it or stands behind its end. -/
theorem pairwise_places {e : Element} (h : e.All IsNested) (path : ElementPath) :
    (descendantsFrom path e).Pairwise fun a b =>
      a.1 <+: b.1 ∨ a.2.range.stop ≤ b.2.range.start := by
  induction h generalizing path with
  | @intro e here nested ih =>
      have hplace : ∀ x ∈ e.children.flatMap stepsOf, x.2.All IsNested ∧
          (descendantsFrom (path.child x.1.feature x.1.index) x.2).Pairwise fun a b =>
            a.1 <+: b.1 ∨ a.2.range.stop ≤ b.2.range.start := by
        intro x hx
        obtain ⟨c, hc, hx⟩ := List.mem_flatMap.mp hx
        have hchild := (Name.step_of_mem_stepsOf hx).2
        exact ⟨nested c hc x.2 hchild, ih c hc x.2 hchild _⟩
      rw [descendantsFrom_eq, List.pairwise_cons, List.pairwise_flatMap]
      refine ⟨fun described hmem => .inl ?_, fun x hx => (hplace x hx).2, ?_⟩
      · obtain ⟨x, hx, hmem⟩ := List.mem_flatMap.mp hmem
        obtain ⟨rest, hrest⟩ := exists_rest_of_mem_descendantsFrom hmem
        rw [hrest, ElementPath.child, List.append_assoc]
        exact List.prefix_append path _
      · -- what is nested in siblings stands where they do
        have hapart := List.pairwise_map.mp here.spread.apart
        refine hapart.imp_of_mem fun {x y} hx hy hxy a ha b hb => .inr ?_
        have ha := (within_of_mem_descendantsFrom (hplace x hx).1 ha).2
        have hb := (within_of_mem_descendantsFrom (hplace y hy).1 hb).1
        omega

end Element
end ModelWorkspace
