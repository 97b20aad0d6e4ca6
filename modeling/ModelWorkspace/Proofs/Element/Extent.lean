import ModelWorkspace.Proofs.Element.Lowering
import ModelWorkspace.Proofs.Tree.Extent

/-!
# Elements lie in the text

Every range that a document keeps is one of its text, and every number of a reference is at
most the width of the text.

The outline of a tree lies where the tree stands (`Outline.within_member`), and the scalars
that a property or its items hold are no more than the bytes that they take.  Whatever is
made of the members of an outline, element or report, takes its ranges and its references
from them (`Lowering.lowersWithin`).
-/

namespace ModelWorkspace

open Lowering (referenceScalars)

/-- The ranges of a value lie in front of a limit. -/
def Value.Within (limit : Nat) (v : Value) : Prop :=
  ∀ s ∈ v.scalars, s.range.Within limit

/-- The ranges of a member and of all that is nested in it lie in front of a limit, and the
limit is at least the number of scalars that a property or its items hold. -/
inductive Member.Within (limit : Nat) : Member → Prop
  | property {range : TextRange} {key : String} {keyRange : TextRange} {value : Option Value}
      {block : Option TextRange} {members : List Member}
      (whole : range.Within limit) (named : keyRange.Within limit)
      (valued : ∀ v ∈ value, v.Within limit)
      (counted : (referenceScalars value members).length ≤ limit)
      (nested : ∀ m ∈ members, Within limit m) :
      Within limit (.property range key keyRange value block members)
  | item {range : TextRange} {value : Option Value} {members : List Member}
      (whole : range.Within limit) (valued : ∀ v ∈ value, v.Within limit)
      (nested : ∀ m ∈ members, Within limit m) : Within limit (.item range value members)

namespace Outline

/-! ## Where an outline stands -/

/-- Trees that stand side by side stand one behind the other. -/
theorem bounds_of_mem_placed {start : Nat} {ts : List Tree} {x : Nat × Tree}
    (hx : x ∈ placed start ts) :
    x.2 ∈ ts ∧ start ≤ x.1 ∧ x.1 + x.2.width ≤ start + Tree.totalWidth ts := by
  induction ts generalizing start with
  | nil => cases hx
  | cons t ts ih =>
      rw [placed] at hx
      rw [Tree.totalWidth, ← Nat.add_assoc]
      rcases List.mem_cons.mp hx with rfl | hx
      · exact ⟨List.mem_cons_self, Nat.le_refl _, Nat.le_add_right _ _⟩
      · obtain ⟨hmem, hstart, hstop⟩ := ih hx
        exact ⟨List.mem_cons_of_mem t hmem, Nat.le_of_add_right_le hstart, hstop⟩

theorem range_scalarOf (start : Nat) (children : List Tree) :
    (scalarOf start children).range = TextRange.ofWidth start (Tree.totalWidth children) := by
  unfold scalarOf
  dsimp only
  split
  · rfl
  · split
    · split
      · rfl
      · split <;> rfl
    · rfl

theorem range_of_scalar? {x : Nat × Tree} {s : Scalar} (h : scalar? x = some s) :
    s.range = TextRange.ofWidth x.1 x.2.width := by
  unfold scalar? at h
  split at h
  · cases h
    exact range_scalarOf _ _
  · cases h

/-- A scalar lies where its tree stands, and takes some text. -/
theorem of_scalar? {x : Nat × Tree} {s : Scalar} (h : scalar? x = some s) (hx : x.2.Solid) :
    s.range = TextRange.ofWidth x.1 x.2.width ∧ 0 < x.2.width := by
  refine ⟨range_of_scalar? h, ?_⟩
  unfold scalar? at h
  split at h
  · cases hx with
    | node filled _ => exact filled rfl
  · cases h

variable {start limit : Nat} {ts : List Tree}

theorem length_filterMap_scalar? (h : ∀ t ∈ ts, t.Solid) (start : Nat) :
    ((placed start ts).filterMap scalar?).length ≤ Tree.totalWidth ts := by
  induction ts generalizing start with
  | nil => exact Nat.le_refl 0
  | cons t ts ih =>
      obtain ⟨ht, hts⟩ := List.forall_mem_cons.mp h
      have hrest := ih hts (start + t.width)
      rw [placed, Tree.totalWidth]
      cases hs : scalar? (start, t) with
      | none =>
          rw [List.filterMap_cons_none hs]
          omega
      | some s =>
          have hpos : 0 < t.width := (of_scalar? hs ht).2
          rw [List.filterMap_cons_some hs, List.length_cons]
          omega

/-- The scalars of a value lie where its tree stands, and are no more than its bytes. -/
theorem of_value? {x : Nat × Tree} {v : Value} (h : value? x = some v) (hx : x.2.Solid)
    (hlimit : x.1 + x.2.width ≤ limit) :
    v.Within limit ∧ v.scalars.length ≤ x.2.width := by
  unfold value? at h
  split at h
  · rename_i start children
    cases h
    have hscalar : scalar? (start, .node .scalar children) = some (scalarOf start children) :=
      rfl
    obtain ⟨hrange, hpos⟩ := of_scalar? hscalar hx
    refine ⟨List.forall_mem_singleton.mpr ?_, hpos⟩
    rw [hrange]
    exact TextRange.within_ofWidth hlimit
  · rename_i start children
    cases h
    cases hx with
    | node _ nested =>
        refine ⟨fun s hs => ?_, length_filterMap_scalar? nested start⟩
        obtain ⟨y, hy, hscalar⟩ := List.mem_filterMap.mp hs
        obtain ⟨hmem, -, hle⟩ := bounds_of_mem_placed hy
        rw [(of_scalar? hscalar (nested y.2 hmem)).1]
        exact TextRange.within_ofWidth (Nat.le_trans hle hlimit)
  · cases h

/-- The value among trees that stand side by side. -/
theorem of_findSome?_value? {v : Value} (h : (placed start ts).findSome? value? = some v)
    (hts : ∀ t ∈ ts, t.Solid) (hlimit : start + Tree.totalWidth ts ≤ limit) :
    v.Within limit ∧ v.scalars.length ≤ Tree.totalWidth ts := by
  obtain ⟨x, hx, hvalue⟩ := List.exists_of_findSome?_eq_some h
  obtain ⟨hmem, hstart, hstop⟩ := bounds_of_mem_placed hx
  obtain ⟨hwithin, hcount⟩ := of_value? hvalue (hts x.2 hmem) (Nat.le_trans hstop hlimit)
  exact ⟨hwithin, by omega⟩

theorem within_of_key? {key : String} {keyRange : TextRange}
    (h : key? (placed start ts) = some (key, keyRange))
    (hlimit : start + Tree.totalWidth ts ≤ limit) : keyRange.Within limit := by
  obtain ⟨x, hx, hkey⟩ := List.exists_of_findSome?_eq_some h
  obtain ⟨-, -, hstop⟩ := bounds_of_mem_placed hx
  obtain ⟨place, t⟩ := x
  cases t with
  | node kind children => cases hkey
  | leaf token =>
      dsimp only at hkey
      split at hkey
      · cases hkey
        exact TextRange.within_ofWidth (Nat.le_trans hstop hlimit)
      · cases hkey

/-! ## How many scalars items hold -/

/-- The items that a tree makes hold no more scalars than it has bytes. -/
theorem length_scalars_member {t : Tree} (ht : t.Solid) (start : Nat) :
    (referenceScalars none (member start t)).length ≤ t.width := by
  cases ht with
  | leaf token => exact Nat.zero_le _
  | @node kind children filled nested =>
      cases kind with
      | listItem =>
          rw [member, Tree.width]
          cases hvalue : (placed start children).findSome? value? with
          | none => exact Nat.zero_le _
          | some v =>
              have hcount := (of_findSome?_value? hvalue nested (Nat.le_refl _)).2
              show (v.scalars ++ []).length ≤ _
              rw [List.append_nil]
              exact hcount
      | property =>
          rw [member]
          split <;> exact Nat.zero_le _
      | _ => exact Nat.zero_le _

theorem length_scalars_members (hts : ∀ t ∈ ts, t.Solid) (start : Nat) :
    (referenceScalars none (members start ts)).length ≤ Tree.totalWidth ts := by
  induction ts generalizing start with
  | nil => exact Nat.le_refl 0
  | cons t ts ih =>
      obtain ⟨ht, hts⟩ := List.forall_mem_cons.mp hts
      have hfirst := length_scalars_member ht start
      have hrest := ih hts (start + t.width)
      unfold referenceScalars at hfirst hrest ⊢
      dsimp only at hfirst hrest ⊢
      rw [members, List.flatMap_append, List.length_append, Tree.totalWidth]
      omega

/-! ## Members -/

theorem members_eq (start : Nat) (ts : List Tree) :
    members start ts = (placed start ts).flatMap fun x => member x.1 x.2 := by
  induction ts generalizing start with
  | nil => rfl
  | cons t ts ih => rw [members, placed, List.flatMap_cons, ih]

theorem kind_of_block? {x : Nat × Tree} {range : TextRange} (h : block? x = some range) :
    x.2.kind = .block := by
  unfold block? at h
  split at h
  · rfl
  · cases h

/-- The members of the first block are those of a block that stands there, if any does. -/
theorem firstBlock_eq (start : Nat) (ts : List Tree) :
    firstBlock start ts = [] ∨
      ∃ x ∈ placed start ts, x.2.kind = .block ∧ firstBlock start ts = blockMembers x.1 x.2 := by
  induction ts generalizing start with
  | nil => exact Or.inl rfl
  | cons t ts ih =>
      rw [firstBlock, placed]
      split
      · rename_i hblock
        exact Or.inr ⟨(start, t), List.mem_cons_self, kind_of_block? hblock, rfl⟩
      · rcases ih (start + t.width) with hnone | ⟨x, hx, hkind, hfirst⟩
        · exact Or.inl hnone
        · exact Or.inr ⟨x, List.mem_cons_of_mem _ hx, hkind, hfirst⟩

/-- The members of a block hold no more scalars than it has bytes. -/
theorem length_scalars_blockMembers {t : Tree} (ht : t.Solid) (start : Nat) :
    (referenceScalars none (blockMembers start t)).length ≤ t.width := by
  cases ht with
  | leaf token => exact Nat.zero_le _
  | node _ nested => exact length_scalars_members nested start

/-- The members that a tree makes, itself or as a block, lie where it stands. -/
theorem within_member {t : Tree} (ht : t.Solid) (start : Nat) (hlimit : start + t.width ≤ limit) :
    (∀ m ∈ member start t, m.Within limit) ∧ ∀ m ∈ blockMembers start t, m.Within limit := by
  induction ht generalizing start with
  | leaf token => exact ⟨List.forall_mem_nil _, List.forall_mem_nil _⟩
  | @node kind children filled nested ih =>
      rw [Tree.width] at hlimit
      -- what a child makes, as a member or as the block of a property, is known to lie where
      -- the child stands, and that is within the node
      have hplaced : ∀ x ∈ placed start children,
          (∀ m ∈ member x.1 x.2, m.Within limit) ∧
            (∀ m ∈ blockMembers x.1 x.2, m.Within limit) ∧
            (referenceScalars none (blockMembers x.1 x.2)).length ≤ limit := by
        intro x hx
        obtain ⟨hmem, -, hstop⟩ := bounds_of_mem_placed hx
        obtain ⟨hmember, hblock⟩ := ih x.2 hmem x.1 (Nat.le_trans hstop hlimit)
        have hcount := length_scalars_blockMembers (nested x.2 hmem) x.1
        exact ⟨hmember, hblock, by omega⟩
      have hmembers : ∀ m ∈ members start children, m.Within limit := by
        rw [members_eq]
        intro m hm
        obtain ⟨x, hx, hm⟩ := List.mem_flatMap.mp hm
        exact (hplaced x hx).1 m hm
      have hblock : (∀ m ∈ firstBlock start children, m.Within limit) ∧
          (referenceScalars none (firstBlock start children)).length ≤ limit := by
        rcases firstBlock_eq start children with hnone | ⟨x, hx, -, hfirst⟩
        · rw [hnone]
          exact ⟨List.forall_mem_nil _, Nat.zero_le _⟩
        · rw [hfirst]
          exact (hplaced x hx).2
      have hvalue : ∀ v ∈ (placed start children).findSome? value?,
          v.Within limit ∧ v.scalars.length ≤ limit := by
        intro v hv
        obtain ⟨hwithin, hcount⟩ := of_findSome?_value? hv nested hlimit
        exact ⟨hwithin, Nat.le_trans hcount (Nat.le_of_add_left_le hlimit)⟩
      have hwhole := TextRange.within_ofWidth hlimit
      refine ⟨?_, hmembers⟩
      cases kind with
      | property =>
          rw [member]
          split
          · rename_i key keyRange hkey
            refine List.forall_mem_singleton.mpr (.property hwhole (within_of_key? hkey hlimit)
              (fun v hv => (hvalue v hv).1) ?_ hblock.1)
            cases hv : (placed start children).findSome? value? with
            | none => exact hblock.2
            | some v => exact (hvalue v hv).2
          · exact List.forall_mem_nil _
      | listItem =>
          rw [member]
          exact List.forall_mem_singleton.mpr (.item hwhole (fun v hv => (hvalue v hv).1) hmembers)
      | _ => exact List.forall_mem_nil _

end Outline

/-! ## Elements -/

/-- The ranges that an element and everything nested in it keep lie in front of a limit, and
so do the numbers of its references. -/
inductive Element.Within (limit : Nat) : Element → Prop
  | intro {e : Element} (whole : e.range.Within limit)
      (declared : ∀ range ∈ e.idRange, range.Within limit)
      (referred : ∀ site ∈ e.references, site.range.Within limit ∧ site.index ≤ limit)
      (nested : ∀ c ∈ e.children, ∀ child ∈ c.elements, Within limit child) : Within limit e

theorem Element.Within.mono {limit larger : Nat} {e : Element} (h : e.Within limit)
    (hle : limit ≤ larger) : e.Within larger := by
  induction h with
  | intro whole declared referred nested ih =>
      refine .intro (whole.mono hle) (fun range hrange => (declared range hrange).mono hle)
        (fun site hsite => ?_) ih
      obtain ⟨hrange, hindex⟩ := referred site hsite
      exact ⟨hrange.mono hle, Nat.le_trans hindex hle⟩

namespace Lowering

/-- All reports lie in front of a limit. -/
def ReportsWithin (limit : Nat) (errors : List SyntaxError) : Prop :=
  ∀ e ∈ errors, e.range.Within limit

variable {limit : Nat}

theorem ReportsWithin.nil : ReportsWithin limit [] :=
  List.forall_mem_nil _

theorem ReportsWithin.single {range : TextRange} (h : range.Within limit) (message : String) :
    ReportsWithin limit [⟨message, range⟩] :=
  List.forall_mem_singleton.mpr h

theorem ReportsWithin.append {errors later : List SyntaxError}
    (h : ReportsWithin limit errors) (hlater : ReportsWithin limit later) :
    ReportsWithin limit (errors ++ later) :=
  List.forall_mem_append.mpr ⟨h, hlater⟩

theorem within_start {range : TextRange} (h : range.Within limit) (kind : ElementKind) :
    Element.Within limit { kind := kind, range := range } :=
  .intro h (fun _ hrange => nomatch hrange) (List.forall_mem_nil _) (List.forall_mem_nil _)

/-- The scalars that a property names lie where the property does. -/
theorem within_of_mem_referenceScalars {value : Option Value} {members : List Member}
    (hvalue : ∀ v ∈ value, v.Within limit) (hmembers : ∀ m ∈ members, m.Within limit)
    {s : Scalar} (hs : s ∈ referenceScalars value members) : s.range.Within limit := by
  rcases exists_of_mem_referenceScalars hs with ⟨v, hv, hs⟩ | ⟨_, v, _, hm, hs⟩
  · exact hvalue v hv s hs
  · cases hmembers _ hm with
    | item _ valued _ => exact valued v rfl s hs

/-- The references of a property lie where it names them, and are numbered below the number
of scalars. -/
theorem within_of_mem_sitesOf {spec : ReferenceSpec} {scalars : List Scalar}
    (hscalars : ∀ s ∈ scalars, s.range.Within limit) (hlength : scalars.length ≤ limit)
    {site : ReferenceSite} (hsite : site ∈ sitesOf spec scalars) :
    site.range.Within limit ∧ site.index ≤ limit := by
  obtain ⟨⟨s, index⟩, hs, rfl⟩ := List.mem_map.mp hsite
  have hget := List.mem_zipIdx_iff_getElem?.mp hs
  obtain ⟨hlt, -⟩ := List.getElem?_eq_some_iff.mp hget
  exact ⟨hscalars s (List.mem_of_getElem? hget), Nat.le_trans (Nat.le_of_lt hlt) hlength⟩

theorem within_addReferences {e : Element} {entry : Entry} (h : e.Within limit)
    (hkey : entry.keyRange.Within limit) (hvalue : ∀ v ∈ entry.value, v.Within limit)
    (hlength : (referenceScalars entry.value entry.members).length ≤ limit)
    (hmembers : ∀ m ∈ entry.members, m.Within limit) (spec : ReferenceSpec) :
    (addReferences e spec entry).1.Within limit ∧
      ReportsWithin limit (addReferences e spec entry).2 := by
  obtain ⟨hwhole, hdeclared, hreferred, hnested⟩ := h
  have hscalars : ∀ s ∈ referenceScalars entry.value entry.members, s.range.Within limit :=
    fun s hs => within_of_mem_referenceScalars hvalue hmembers hs
  constructor
  · refine .intro hwhole hdeclared (List.forall_mem_append.mpr ⟨hreferred, ?_⟩) hnested
    intro site hsite
    split at hsite
    · exact within_of_mem_sitesOf hscalars hlength hsite
    · refine within_of_mem_sitesOf (fun s hs => hscalars s (List.mem_of_mem_take hs)) ?_ hsite
      exact Nat.le_trans (List.length_take_le' _ _) hlength
  · unfold addReferences
    dsimp only
    split
    · exact ReportsWithin.single hkey _
    · exact ReportsWithin.nil

theorem within_declareId {e : Element} {entry : Entry} (h : e.Within limit)
    (hkey : entry.keyRange.Within limit) (hvalue : ∀ v ∈ entry.value, v.Within limit) :
    (declareId e entry).1.Within limit ∧ ReportsWithin limit (declareId e entry).2 := by
  unfold declareId
  split
  · rename_i s hs
    obtain ⟨hwhole, -, hreferred, hnested⟩ := h
    have hrange : s.range.Within limit := hvalue _ hs s List.mem_cons_self
    exact ⟨.intro hwhole (fun range heq => Option.some.inj heq ▸ hrange) hreferred hnested,
      ReportsWithin.nil⟩
  · exact ⟨h, ReportsWithin.single hkey _⟩

theorem within_addPlain {e : Element} (h : e.Within limit) (entry : Entry) :
    (addPlain e entry).Within limit := by
  obtain ⟨hwhole, hdeclared, hreferred, hnested⟩ := h
  unfold addPlain
  split <;> exact .intro hwhole hdeclared hreferred hnested

theorem within_listReports {entry : Entry} (hmembers : ∀ m ∈ entry.members, m.Within limit)
    {reports : List SyntaxError} (h : listReports entry = some reports) :
    ReportsWithin limit reports := by
  unfold listReports at h
  split at h
  · cases h
  · cases h
    split
    · rename_i range hrange
      obtain ⟨m, hm, hkey⟩ := List.exists_of_findSome?_eq_some hrange
      refine ReportsWithin.single ?_ _
      split at hkey
      · cases hkey
        cases hmembers _ hm with
        | property _ named _ _ _ => exact named
      · cases hkey
    · exact ReportsWithin.nil

/-- Adding a member to an element keeps it in front of the limit, and what is reported lies
there too; so do the elements that the member of a list holds. -/
structure LowersWithin (limit : Nat) (m : Member) : Prop where
  addMember : ∀ {e : Element}, e.Within limit → ∀ seen,
    (addMember e seen m).1.Within limit ∧ ReportsWithin limit (addMember e seen m).2.2
  itemElement : ∀ kind, (∀ child ∈ (itemElement kind m).1, child.Within limit) ∧
    ReportsWithin limit (itemElement kind m).2

theorem within_addMembers {ms : List Member} (hms : ∀ m ∈ ms, LowersWithin limit m)
    {e : Element} (h : e.Within limit) (seen : List String) :
    (addMembers e seen ms).1.Within limit ∧ ReportsWithin limit (addMembers e seen ms).2 := by
  induction ms generalizing e seen with
  | nil => exact ⟨h, ReportsWithin.nil⟩
  | cons m rest ih =>
      obtain ⟨hm, hrest⟩ := List.forall_mem_cons.mp hms
      obtain ⟨hadded, herrors⟩ := hm.addMember h seen
      rw [addMembers]
      obtain ⟨hall, hlater⟩ := ih hrest hadded (addMember e seen m).2.1
      exact ⟨hall, herrors.append hlater⟩

theorem within_itemElements {ms : List Member} (hms : ∀ m ∈ ms, LowersWithin limit m)
    (kind : ElementKind) :
    (∀ child ∈ (itemElements kind ms).1, child.Within limit) ∧
      ReportsWithin limit (itemElements kind ms).2 := by
  induction ms with
  | nil => exact ⟨List.forall_mem_nil _, ReportsWithin.nil⟩
  | cons m rest ih =>
      obtain ⟨hm, hrest⟩ := List.forall_mem_cons.mp hms
      obtain ⟨helements, herrors⟩ := hm.itemElement kind
      obtain ⟨hothers, hlater⟩ := ih hrest
      rw [itemElements]
      exact ⟨List.forall_mem_append.mpr ⟨helements, hothers⟩, herrors.append hlater⟩

/-- A containment of what is made of a property. -/
theorem within_addContainment {e : Element} (h : e.Within limit)
    {made : List Element × List SyntaxError}
    (hmade : (∀ child ∈ made.1, child.Within limit) ∧ ReportsWithin limit made.2)
    (feature : String) :
    Element.Within limit { e with children := e.children ++ [⟨feature, made.1⟩] } ∧
      ReportsWithin limit made.2 := by
  obtain ⟨hwhole, hdeclared, hreferred, hnested⟩ := h
  refine ⟨.intro hwhole hdeclared hreferred ?_, hmade.2⟩
  exact List.forall_mem_append.mpr ⟨hnested, List.forall_mem_singleton.mpr hmade.1⟩

/-- A containment has what the members of its block or its items make. -/
theorem Nests.within {spec : ContainmentSpec} {range : TextRange} {entry : Entry}
    {made : List Element × List SyntaxError} (h : Nests spec range entry made)
    (hwhole : range.Within limit) (hkey : entry.keyRange.Within limit)
    (hmembers : ∀ m ∈ entry.members, m.Within limit)
    (hlowers : ∀ m ∈ entry.members, LowersWithin limit m) :
    (∀ child ∈ made.1, child.Within limit) ∧ ReportsWithin limit made.2 := by
  cases h with
  | noList many valued => exact ⟨List.forall_mem_nil _, ReportsWithin.single hkey _⟩
  | list many listed =>
      obtain ⟨helements, herrors⟩ := within_itemElements hlowers spec.kind
      exact ⟨helements, (within_listReports hmembers listed).append herrors⟩
  | block single written =>
      obtain ⟨hadded, herrors⟩ := within_addMembers hlowers (within_start hwhole spec.kind) []
      exact ⟨List.forall_mem_singleton.mpr hadded, herrors⟩
  | noBlock single missing => exact ⟨List.forall_mem_nil _, ReportsWithin.single hkey _⟩

theorem lowersWithin {m : Member} (h : m.Within limit) : LowersWithin limit m := by
  induction h with
  | @item range value members whole valued nested ih =>
      refine ⟨fun he _ => ⟨he, ReportsWithin.nil⟩, fun kind => ?_⟩
      cases value with
      | some v => exact ⟨List.forall_mem_nil _, ReportsWithin.single whole _⟩
      | none =>
          obtain ⟨hadded, herrors⟩ := within_addMembers ih (within_start whole kind) []
          exact ⟨List.forall_mem_singleton.mpr hadded, herrors⟩
  | @property range key keyRange value block members whole named valued counted nested ih =>
      refine ⟨fun {e} he seen => ?_, fun kind => ⟨List.forall_mem_nil _, ReportsWithin.nil⟩⟩
      obtain ⟨added, hadded, hadds⟩ := exists_adds e seen range key keyRange value block members
      rw [hadded]
      cases hadds with
      | again used => exact ⟨he, ReportsWithin.single named _⟩
      | identifies new declares => exact within_declareId he named valued
      | contains new other known nests =>
          exact within_addContainment he (nests.within whole named nested ih) key
      | refers new other nothingNested known =>
          exact within_addReferences he named valued counted nested _
      | plain new other nothingNested noReference =>
          exact ⟨within_addPlain he _, ReportsWithin.nil⟩

/-- What is made of the members at the top of a file lies where they do. -/
theorem within_root {ms : List Member} (hms : ∀ m ∈ ms, m.Within limit) :
    (∀ e ∈ (root ms).1, e.Within limit) ∧ ReportsWithin limit (root ms).2 := by
  have hnone : ∀ e ∈ (none : Option Element), e.Within limit := fun _ he => nomatch he
  have hsome : ∀ {e : Element}, e.Within limit → ∀ found ∈ some e, found.Within limit :=
    fun he found hfound => Option.some.inj hfound ▸ he
  induction ms with
  | nil => exact ⟨hnone, ReportsWithin.nil⟩
  | cons m rest ih =>
      obtain ⟨hm, hrest⟩ := List.forall_mem_cons.mp hms
      cases hm with
      | item _ _ _ => exact ih hrest
      | @property range key keyRange value block members whole named _ _ nested =>
          rw [Lowering.root]
          split
          · exact ⟨hnone, ReportsWithin.single named _⟩
          · rename_i kind _
            have hstart := within_start whole kind
            split
            · exact ⟨hsome hstart, ReportsWithin.single named _⟩
            · obtain ⟨hadded, herrors⟩ :=
                within_addMembers (fun m hm => lowersWithin (nested m hm)) hstart []
              exact ⟨hsome hadded, herrors⟩

end Lowering

/-! ## Documents -/

/-- Every range that a document keeps lies in its text. -/
theorem Document.within_ofText (text : String) :
    (∀ t ∈ (ofText text).tokens, t.range.Within (byteWidth text.toList)) ∧
      (∀ e ∈ (ofText text).root, e.Within (byteWidth text.toList)) ∧
      (∀ e ∈ (ofText text).lexErrors, e.range.Within (byteWidth text.toList)) ∧
      ∀ e ∈ (ofText text).syntaxErrors, e.range.Within (byteWidth text.toList) := by
  obtain ⟨hread, -⟩ := (Grammar.closed_within (byteWidth text.toList)).fileMembers .never 0
    (tokenize false text).tokens
  obtain ⟨hsolid, herrors, -⟩ := hread fun t ht =>
    ⟨within_of_mem_tokenize ht, width_pos_of_beginsValue ht⟩
  have hwidth : (Parse.ofText false text).tree.width = byteWidth text.toList := by
    have hleaves : (Parse.ofText false text).tree.leaves = (tokenize false text).tokens :=
      Parse.leaves_underSignal .never false text
    rw [Tree.width_eq_sum, hleaves, (tiles_tokenize false text).sum_width]
  have htree : (Parse.ofText false text).tree.Solid :=
    .node (fun heq => nomatch heq) hsolid
  have hmembers : ∀ m ∈ Outline.ofTree (Parse.ofText false text).tree,
      m.Within (byteWidth text.toList) :=
    (Outline.within_member htree 0 (by rw [Nat.zero_add, hwidth])).2
  obtain ⟨hroot, hreports⟩ := Lowering.within_root hmembers
  have hlexErrors : ∀ e ∈ (tokenize false text).errors,
      e.range.Within (byteWidth text.toList) := fun e he => within_of_mem_lexErrors he
  refine ⟨fun t ht => ?_, hroot, hlexErrors, ?_⟩
  · obtain ⟨token, htoken, rfl⟩ := List.mem_map.mp ht
    exact within_of_mem_tokenize htoken
  · exact List.forall_mem_append.mpr ⟨herrors, hreports⟩

end ModelWorkspace
