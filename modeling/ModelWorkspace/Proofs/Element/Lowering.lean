import ModelWorkspace.Document.Basic
import ModelWorkspace.Proofs.Element.Steps
import ModelWorkspace.Proofs.Element.Walk

/-!
# Lowered elements fit the schema

An element is built from its members one after the other.  What each step keeps holds of
the root of every document, and of all elements in it (`Preserved.root`).

Three things are kept.  The keys of containments are among those that are used up, and a key
that is used up is reported and not added again; so every feature is written once.  Elements
are nested only under features that the schema names for their container, and are of the
kinds that it names there.  And the references of a property are numbered in order.
-/

namespace ModelWorkspace

/-- Induction on a member, with the hypothesis for all members nested in it. -/
@[elab_as_elim]
theorem Member.nested_induction {motive : Member → Prop}
    (property : ∀ range key keyRange value block members, (∀ m ∈ members, motive m) →
      motive (.property range key keyRange value block members))
    (item : ∀ range value members, (∀ m ∈ members, motive m) →
      motive (.item range value members)) (m : Member) : motive m :=
  @Member.rec motive (fun ms => ∀ m ∈ ms, motive m)
    (fun range key keyRange value block members ih =>
      property range key keyRange value block members ih)
    (fun range value members ih => item range value members ih)
    (fun _ hm => absurd hm List.not_mem_nil)
    (fun _ _ hhead htail => List.forall_mem_cons.mpr ⟨hhead, htail⟩) m

/-- A root that some members are lowered to. -/
def Element.IsLowered (root : Element) : Prop :=
  ∃ members, (Lowering.root members).1 = some root

/-- The root of a document is lowered. -/
theorem Document.isLowered_root {text : String} {root : Element}
    (h : (Document.ofText text).root = some root) : root.IsLowered :=
  ⟨Outline.ofTree (Parse.ofText false text).tree, h⟩

namespace Lowering

/-- What every step keeps that adds something to an element.  The keys that are used up are
known at each step, and what the schema says of the key that is added. -/
structure Preserved (P : Element → List String → Prop) : Prop where
  start : ∀ kind range, P { kind := kind, range := range } []
  declareId : ∀ {e seen}, P e seen → e.kind.declaresId = true → ∀ entry,
    P (declareId e entry).1 ("id" :: seen)
  addPlain : ∀ {e seen}, P e seen → ∀ entry : Entry, entry.key ∉ seen →
    ¬(entry.key = "id" ∧ e.kind.declaresId = true) → e.kind.containment? entry.key = none →
    e.kind.reference? entry.key = none → P (addPlain e entry) (entry.key :: seen)
  addReferences : ∀ {e seen key spec}, P e seen → key ∉ seen →
    e.kind.reference? key = some spec → ∀ entry, P (addReferences e spec entry).1 (key :: seen)
  addContainment : ∀ {e seen key spec elements}, P e seen → key ∉ seen →
    e.kind.containment? key = some spec →
    (∀ child ∈ elements, child.kind = spec.kind ∧ ∃ used, P child used) →
    (spec.many = false → elements.length ≤ 1) →
    P { e with children := e.children ++ [⟨key, elements⟩] } (key :: seen)

/-- What is kept and depends on nothing but the kind, the references and the containments of
an element, and on the keys that are used up. -/
structure Kept (P : Element → List String → Prop) : Prop where
  start : ∀ kind range, P { kind := kind, range := range } []
  congr : ∀ {e seen}, P e seen → ∀ {other : Element}, other.kind = e.kind →
    other.references = e.references → other.children = e.children → ∀ key,
    P other (key :: seen)
  addReferences : ∀ {e seen key spec}, P e seen → key ∉ seen →
    e.kind.reference? key = some spec → ∀ entry, P (addReferences e spec entry).1 (key :: seen)
  addContainment : ∀ {e seen key spec elements}, P e seen → key ∉ seen →
    e.kind.containment? key = some spec →
    (∀ child ∈ elements, child.kind = spec.kind ∧ ∃ used, P child used) →
    P { e with children := e.children ++ [⟨key, elements⟩] } (key :: seen)

/-! ## The steps -/

theorem shape_declareId (e : Element) (entry : Entry) :
    (declareId e entry).1.kind = e.kind ∧ (declareId e entry).1.references = e.references ∧
      (declareId e entry).1.children = e.children := by
  unfold declareId
  split <;> exact ⟨rfl, rfl, rfl⟩

theorem shape_addPlain (e : Element) (entry : Entry) :
    (addPlain e entry).kind = e.kind ∧ (addPlain e entry).references = e.references ∧
      (addPlain e entry).children = e.children := by
  unfold addPlain
  split <;> exact ⟨rfl, rfl, rfl⟩

theorem mem_addContainment {cs : List (Containment Element)} {c new : Containment Element}
    (hc : c ∈ cs ++ [new]) : c ∈ cs ∨ c = new :=
  (List.mem_append.mp hc).imp_right List.mem_singleton.mp

/-- Adding a member keeps a property and the kind, and the member of a list holds elements
of the kind that is asked for, which have the property. -/
structure Keeps (P : Element → List String → Prop) (m : Member) : Prop where
  addMember : ∀ {e seen}, P e seen →
    (addMember e seen m).1.kind = e.kind ∧ P (addMember e seen m).1 (addMember e seen m).2.1
  itemElement : ∀ kind, ∀ child ∈ (itemElement kind m).1,
    child.kind = kind ∧ ∃ used, P child used

variable {P : Element → List String → Prop}

theorem exists_addMembers {ms : List Member} (hms : ∀ m ∈ ms, Keeps P m) {e : Element}
    {seen : List String} (h : P e seen) :
    (addMembers e seen ms).1.kind = e.kind ∧ ∃ used, P (addMembers e seen ms).1 used := by
  induction ms generalizing e seen with
  | nil => exact ⟨rfl, seen, h⟩
  | cons m rest ih =>
      obtain ⟨hm, hrest⟩ := List.forall_mem_cons.mp hms
      obtain ⟨hkind, hadded⟩ := hm.addMember h
      rw [addMembers, ← hkind]
      exact ih hrest hadded

theorem exists_itemElements {ms : List Member} (hms : ∀ m ∈ ms, Keeps P m)
    (kind : ElementKind) :
    ∀ child ∈ (itemElements kind ms).1, child.kind = kind ∧ ∃ used, P child used := by
  induction ms with
  | nil => exact fun _ hchild => absurd hchild List.not_mem_nil
  | cons m rest ih =>
      obtain ⟨hm, hrest⟩ := List.forall_mem_cons.mp hms
      rw [itemElements]
      intro child hchild
      rcases List.mem_append.mp hchild with hchild | hchild
      · exact hm.itemElement kind child hchild
      · exact ih hrest child hchild

theorem Kept.preserved (h : Kept P) : Preserved P where
  start := h.start
  declareId := by
    intro e seen he _ entry
    obtain ⟨hkind, hreferences, hchildren⟩ := shape_declareId e entry
    exact h.congr he hkind hreferences hchildren "id"
  addPlain := by
    intro e seen he entry _ _ _ _
    obtain ⟨hkind, hreferences, hchildren⟩ := shape_addPlain e entry
    exact h.congr he hkind hreferences hchildren entry.key
  addReferences := h.addReferences
  addContainment := fun he hkey hspec helements _ => h.addContainment he hkey hspec helements

/-- The elements that are nested under a feature: of the kind that is asked for, and one at most
where a single one is. -/
theorem Preserved.nests (h : Preserved P) {spec : ContainmentSpec} {range : TextRange}
    {entry : Entry} {made : List Element × List SyntaxError} (hmade : Nests spec range entry made)
    (hmembers : ∀ m ∈ entry.members, Keeps P m) :
    (∀ child ∈ made.1, child.kind = spec.kind ∧ ∃ used, P child used) ∧
      (spec.many = false → made.1.length ≤ 1) := by
  cases hmade with
  | noList many valued => exact ⟨List.forall_mem_nil _, fun _ => Nat.zero_le 1⟩
  | list many listed =>
      exact ⟨exists_itemElements hmembers spec.kind, fun single => by simp [many] at single⟩
  | block single written =>
      exact ⟨List.forall_mem_singleton.mpr (exists_addMembers hmembers (h.start spec.kind range)),
        fun _ => Nat.le_refl 1⟩
  | noBlock single missing => exact ⟨List.forall_mem_nil _, fun _ => Nat.zero_le 1⟩

theorem Preserved.keeps (h : Preserved P) (m : Member) : Keeps P m := by
  induction m using Member.nested_induction with
  | property range key keyRange value block members ih =>
      refine ⟨fun {e seen} he => ?_, fun kind child hchild => absurd hchild List.not_mem_nil⟩
      obtain ⟨added, hadded, hadds⟩ := exists_adds e seen range key keyRange value block members
      rw [hadded]
      cases hadds with
      | again used => exact ⟨rfl, he⟩
      | identifies new declares =>
          obtain ⟨rfl, hdeclares⟩ := declares
          exact ⟨(shape_declareId e _).1, h.declareId he hdeclares _⟩
      | contains new other known nests =>
          obtain ⟨helements, hone⟩ := h.nests nests ih
          exact ⟨rfl, h.addContainment he new known helements hone⟩
      | refers new other nothingNested known => exact ⟨rfl, h.addReferences he new known _⟩
      | plain new other nothingNested noReference =>
          exact ⟨(shape_addPlain e _).1, h.addPlain he _ new other nothingNested noReference⟩
  | item range value members ih =>
      refine ⟨fun he => ⟨rfl, he⟩, fun kind child hchild => ?_⟩
      cases value with
      | some value => exact absurd hchild List.not_mem_nil
      | none =>
          rw [Lowering.itemElement] at hchild
          rw [List.mem_singleton.mp hchild]
          exact exists_addMembers ih (h.start kind range)

/-- What is kept holds of the root, which is of a kind that stands there. -/
theorem Preserved.root (h : Preserved P) {ms : List Member} {e : Element}
    (hroot : (root ms).1 = some e) : e.kind.isRoot = true ∧ ∃ used, P e used := by
  obtain ⟨range, key, keyRange, value, block, members, kind, -, hkind, hmade⟩ :=
    exists_of_root hroot
  have hisRoot := ElementKind.isRoot_of_ofRootKey? hkind
  rcases hmade with rfl | rfl
  · exact ⟨hisRoot, [], h.start kind range⟩
  · obtain ⟨hsame, hused⟩ :=
      exists_addMembers (fun m (_ : m ∈ members) => h.keeps m) (h.start kind range)
    exact ⟨hsame ▸ hisRoot, hused⟩

theorem Kept.root (h : Kept P) {ms : List Member} {e : Element}
    (hroot : (root ms).1 = some e) : e.kind.isRoot = true ∧ ∃ used, P e used :=
  h.preserved.root hroot

/-! ## Features are written once -/

/-- An element that is being built: its features are distinct and used up. -/
structure Building (e : Element) (seen : List String) : Prop where
  distinct : e.HasDistinctFeatures
  used : ∀ c ∈ e.children, c.feature ∈ seen

namespace Building

variable {e : Element} {seen : List String}

theorem start (kind : ElementKind) (range : TextRange) :
    Building { kind := kind, range := range } [] :=
  ⟨.intro List.nodup_nil fun _ hc => absurd hc List.not_mem_nil,
    fun _ hc => absurd hc List.not_mem_nil⟩

/-- Only the containments matter. -/
theorem congr (h : Building e seen) {other : Element} (hchildren : other.children = e.children)
    (key : String) : Building other (key :: seen) := by
  obtain ⟨⟨hnodup, hnested⟩, hused⟩ := h
  refine ⟨.intro (hchildren ▸ hnodup) (hchildren ▸ hnested), ?_⟩
  rw [hchildren]
  exact fun c hc => List.mem_cons_of_mem _ (hused c hc)

theorem addContainment (h : Building e seen) {key : String} (hkey : key ∉ seen)
    {elements : List Element} (helements : ∀ child ∈ elements, child.HasDistinctFeatures) :
    Building { e with children := e.children ++ [⟨key, elements⟩] } (key :: seen) := by
  obtain ⟨⟨hnodup, hnested⟩, hused⟩ := h
  have hnew : key ∉ e.children.map (·.feature) := by
    intro hmem
    obtain ⟨c, hc, rfl⟩ := List.mem_map.mp hmem
    exact hkey (hused c hc)
  refine ⟨.intro ?_ ?_, ?_⟩
  · rw [List.map_append]
    refine List.nodup_append.mpr ⟨hnodup, List.nodup_singleton _, ?_⟩
    intro a ha b hb heq
    rw [List.map_singleton, List.mem_singleton] at hb
    rw [heq, hb] at ha
    exact hnew ha
  · intro c hc
    rcases mem_addContainment hc with hc | rfl
    · exact hnested c hc
    · exact helements
  · intro c hc
    rcases mem_addContainment hc with hc | rfl
    · exact List.mem_cons_of_mem _ (hused c hc)
    · exact List.mem_cons_self

end Building

theorem kept_building : Kept Building where
  start := Building.start
  congr := fun h _ _ _ hchildren => h.congr hchildren
  addReferences := by
    rintro e seen key spec h - - entry
    exact h.congr (show (addReferences e spec entry).1.children = e.children from rfl) key
  addContainment := fun h hkey _ helements =>
    h.addContainment hkey fun child hchild => (helements child hchild).2.elim fun _ => (·.distinct)

end Lowering

/-- A lowered root writes each feature once, on every level. -/
theorem Element.IsLowered.distinct {root : Element} (h : root.IsLowered) :
    root.HasDistinctFeatures := by
  obtain ⟨members, hroot⟩ := h
  exact (Lowering.kept_building.root hroot).2.elim fun _ => (·.distinct)

/-! ## Features are those of the schema -/

/-- Elements are nested only under features that the schema knows, on every level. -/
inductive Element.FitsSchema : Element → Prop
  | intro {e : Element} (known : ∀ c ∈ e.children, (e.kind.containment? c.feature).isSome = true)
      (nested : ∀ c ∈ e.children, ∀ child ∈ c.elements, FitsSchema child) : FitsSchema e

theorem Lowering.kept_fitsSchema : Kept fun e _ => e.FitsSchema where
  start := fun _ _ =>
    .intro (fun _ hc => absurd hc List.not_mem_nil) fun _ hc => absurd hc List.not_mem_nil
  congr := by
    rintro e seen ⟨hknown, hnested⟩ other hkind - hchildren key
    exact .intro (hkind ▸ hchildren ▸ hknown) (hchildren ▸ hnested)
  addReferences := by
    rintro e seen key spec ⟨hknown, hnested⟩ - - entry
    exact .intro hknown hnested
  addContainment := by
    rintro e seen key spec elements ⟨hknown, hnested⟩ - hspec helements
    refine .intro (fun c hc => ?_) fun c hc => ?_
    · rcases mem_addContainment hc with hc | rfl
      · exact hknown c hc
      · exact Option.isSome_of_eq_some hspec
    · rcases mem_addContainment hc with hc | rfl
      · exact hnested c hc
      · exact fun child hchild => (helements child hchild).2.elim fun _ => id

/-- A lowered root fits the schema. -/
theorem Element.IsLowered.fitsSchema {root : Element} (h : root.IsLowered) :
    root.FitsSchema := by
  obtain ⟨members, hroot⟩ := h
  exact (Lowering.kept_fitsSchema.root hroot).2.elim fun _ hfits => hfits

/-! ## Kinds are those of the schema, and references are numbered -/

/-- Nested elements are of the kinds that the schema names for their features, and the
references of a property are numbered, on every level. -/
inductive Element.IsTyped : Element → Prop
  | intro {e : Element}
      (numbered : ∀ property, (e.referencesOf property).map (·.index) =
        List.range (e.referencesOf property).length)
      (kinds : ∀ c ∈ e.children, ∀ child ∈ c.elements, ∃ spec,
        e.kind.containment? c.feature = some spec ∧ child.kind = spec.kind)
      (nested : ∀ c ∈ e.children, ∀ child ∈ c.elements, IsTyped child) : IsTyped e

namespace Lowering

theorem map_index_sitesOf (spec : ReferenceSpec) (scalars : List Scalar) :
    (sitesOf spec scalars).map (·.index) = List.range (sitesOf spec scalars).length := by
  unfold sitesOf
  rw [List.map_map, List.length_map, List.length_zipIdx, List.range_eq_range',
    ← List.zipIdx_map_snd 0 scalars]
  rfl

theorem property_of_mem_sitesOf {spec : ReferenceSpec} {scalars : List Scalar}
    {site : ReferenceSite} (h : site ∈ sitesOf spec scalars) :
    site.property = spec.property := by
  obtain ⟨x, -, rfl⟩ := List.mem_map.mp h
  rfl

/-- All references of one entry are those of one property. -/
theorem filter_sitesOf (spec : ReferenceSpec) (scalars : List Scalar) (property : String) :
    (sitesOf spec scalars).filter (fun site => site.property == property) =
      if spec.property = property then sitesOf spec scalars else [] := by
  split
  · rename_i hsame
    rw [List.filter_eq_self]
    intro site hsite
    rw [property_of_mem_sitesOf hsite, hsame, beq_self_eq_true]
  · rename_i hother
    rw [List.filter_eq_nil_iff]
    intro site hsite hbeq
    rw [property_of_mem_sitesOf hsite] at hbeq
    exact hother (beq_iff_eq.mp hbeq)

/-- A new key adds its own references, and leaves those of other properties as they are. -/
theorem referencesOf_addReferences {e : Element} {seen : List String} {key : String}
    {spec : ReferenceSpec} (hused : ∀ site ∈ e.references, site.property ∈ seen)
    (hkey : key ∉ seen) (hspec : e.kind.reference? key = some spec) (entry : Entry)
    (property : String) :
    (addReferences e spec entry).1.referencesOf property =
      if key = property then
        let scalars := referenceScalars entry.value entry.members
        sitesOf spec (if spec.many then scalars else scalars.take 1)
      else e.referencesOf property := by
  have hproperty : spec.property = key := by simpa using List.find?_some hspec
  unfold addReferences Element.referencesOf
  dsimp only
  rw [List.filter_append, filter_sitesOf, hproperty]
  split
  · -- the key is new, so no reference has been made under it
    rename_i hsame
    have hold : e.references.filter (fun site => site.property == property) = [] := by
      rw [List.filter_eq_nil_iff]
      intro site hsite hbeq
      have hmem := hused site hsite
      rw [beq_iff_eq.mp hbeq, ← hsame] at hmem
      exact hkey hmem
    rw [hold, List.nil_append]
  · rw [List.append_nil]

theorem used_addReferences {e : Element} {seen : List String} {key : String}
    {spec : ReferenceSpec} (hused : ∀ site ∈ e.references, site.property ∈ seen)
    (hspec : e.kind.reference? key = some spec) (entry : Entry) :
    ∀ site ∈ (addReferences e spec entry).1.references, site.property ∈ key :: seen := by
  have hproperty : spec.property = key := by simpa using List.find?_some hspec
  intro site hsite
  rcases List.mem_append.mp hsite with hsite | hsite
  · exact List.mem_cons_of_mem _ (hused site hsite)
  · rw [property_of_mem_sitesOf hsite, hproperty]
    exact List.mem_cons_self

/-- An element that is being built: its references are those of used keys. -/
structure Typing (e : Element) (seen : List String) : Prop where
  typed : e.IsTyped
  used : ∀ site ∈ e.references, site.property ∈ seen

/-- References of a new key are numbered by themselves. -/
theorem Typing.addReferences {e : Element} {seen : List String} {key : String}
    {spec : ReferenceSpec} (h : Typing e seen) (hkey : key ∉ seen)
    (hspec : e.kind.reference? key = some spec) (entry : Entry) :
    Typing (addReferences e spec entry).1 (key :: seen) := by
  obtain ⟨⟨hnumbered, hkinds, hnested⟩, hused⟩ := h
  refine ⟨.intro (fun property => ?_) hkinds hnested, used_addReferences hused hspec entry⟩
  rw [referencesOf_addReferences hused hkey hspec]
  split
  · exact map_index_sitesOf spec _
  · exact hnumbered property

theorem kept_typing : Kept Typing where
  start := fun _ _ =>
    ⟨.intro (fun _ => rfl) (fun _ hc => absurd hc List.not_mem_nil)
      fun _ hc => absurd hc List.not_mem_nil, fun _ hsite => absurd hsite List.not_mem_nil⟩
  congr := by
    rintro e seen ⟨⟨hnumbered, hkinds, hnested⟩, hused⟩ other hkind hreferences hchildren key
    refine ⟨.intro (fun property => ?_) (hkind ▸ hchildren ▸ hkinds) (hchildren ▸ hnested),
      fun site hsite => List.mem_cons_of_mem _ (hused site (hreferences ▸ hsite))⟩
    have hsame : other.referencesOf property = e.referencesOf property := by
      unfold Element.referencesOf
      rw [hreferences]
    rw [hsame]
    exact hnumbered property
  addReferences := Typing.addReferences
  addContainment := by
    rintro e seen key spec elements ⟨⟨hnumbered, hkinds, hnested⟩, hused⟩ - hspec helements
    refine ⟨.intro hnumbered (fun c hc => ?_) fun c hc => ?_,
      fun site hsite => List.mem_cons_of_mem _ (hused site hsite)⟩
    · rcases mem_addContainment hc with hc | rfl
      · exact hkinds c hc
      · exact fun child hchild => ⟨spec, hspec, (helements child hchild).1⟩
    · rcases mem_addContainment hc with hc | rfl
      · exact hnested c hc
      · exact fun child hchild => (helements child hchild).2.elim fun _ => (·.typed)

end Lowering

/-- A lowered root is of a kind that stands there, and everything in it is of the kind that
the schema names. -/
theorem Element.IsLowered.isTyped {root : Element} (h : root.IsLowered) :
    root.kind.isRoot = true ∧ root.IsTyped := by
  obtain ⟨members, hroot⟩ := h
  exact (Lowering.kept_typing.root hroot).imp_right fun hused => hused.elim fun _ => (·.typed)

end ModelWorkspace
