import ModelWorkspace.Proofs.Element.Lowering

/-!
# Elements conform to the schema

What an element may hold is said by the schema of its kind: which features it nests elements
under, whether it declares an identifier, and which references it makes.  A key with any of
these meanings is no plain property, and a key is used once.  Every element that is made of a
text keeps to that (`IsLowered.conforms`), however broken the text is.
-/

namespace ModelWorkspace
namespace Element

/-- Something holds of an element and of all that is nested in it. -/
inductive All (P : Element → Prop) : Element → Prop
  | intro {e : Element} (here : P e)
      (nested : ∀ c ∈ e.children, ∀ child ∈ c.elements, All P child) : All P e

/-- What an element hands down to the elements directly nested in it holds of all that are
listed below it. -/
theorem of_mem_descendants {P : Element → Prop}
    (hdown : ∀ e, P e → ∀ c ∈ e.children, ∀ child ∈ c.elements, P child) {e : Element}
    (h : P e) {path : ElementPath} {described : ElementPath × Element}
    (hmem : described ∈ descendantsFrom path e) : P described.2 := by
  induction e using Element.nested_induction generalizing path with
  | step e ih =>
      rcases mem_descendantsFrom_iff.mp hmem with rfl | ⟨c, hc, index, child, hget, hbelow⟩
      · exact h
      · have hchild := List.mem_of_getElem? hget
        exact ih c hc child hchild (hdown e h c hc child hchild) hbelow

theorem All.of_mem_descendants {P : Element → Prop} {e : Element} (h : e.All P)
    {path : ElementPath} {described : ElementPath × Element}
    (hmem : described ∈ descendantsFrom path e) : P described.2 := by
  obtain ⟨here, -⟩ := Element.of_mem_descendants (fun _ ⟨_, nested⟩ => nested) h hmem
  exact here

/-- What holds of all that are listed holds on every level. -/
theorem All.of_descendants {P : Element → Prop} {e : Element} {path : ElementPath}
    (h : ∀ described ∈ descendantsFrom path e, P described.2) : e.All P := by
  induction e using Element.nested_induction generalizing path with
  | step e ih =>
      refine .intro (h (path, e) (mem_descendantsFrom_iff.mpr (.inl rfl))) ?_
      intro c hc child hchild
      obtain ⟨index, hindex⟩ := List.mem_iff_getElem?.mp hchild
      refine ih c hc child hchild fun described
        (hmem : described ∈ descendantsFrom (path.child c.feature index) child) => ?_
      exact h described (mem_descendantsFrom_iff.mpr (.inr ⟨c, hc, index, child, hindex, hmem⟩))

/-- What an element declares, refers to and holds as plain properties is what the schema says
of its kind, and there is one of it where the schema asks for one. -/
structure Declared (e : Element) : Prop where
  /-- One element at most is nested under a feature that is no list. -/
  one : ∀ c ∈ e.children, ∀ spec, e.kind.containment? c.feature = some spec →
    spec.many = false → c.elements.length ≤ 1
  /-- There is an identifier only where the kind declares one, -/
  identified : e.id.isSome = true → e.kind.declaresId = true
  /-- and a place for it if and only if there is one. -/
  located : e.idRange.isSome = e.id.isSome
  /-- A reference is one of the kind, and has the target that the schema names. -/
  targeted : ∀ site ∈ e.references, ∃ spec, e.kind.reference? site.property = some spec ∧
    site.target = spec.target
  /-- One reference at most is made by a property that is no list. -/
  single : ∀ property spec, e.kind.reference? property = some spec → spec.many = false →
    (e.referencesOf property).length ≤ 1
  /-- Each plain property is written once, -/
  plainOnce : (e.properties.map Prod.fst).Nodup
  /-- and its key has no other meaning. -/
  plain : ∀ p ∈ e.properties, ¬(p.1 = "id" ∧ e.kind.declaresId = true) ∧
    e.kind.containment? p.1 = none ∧ e.kind.reference? p.1 = none

/-- All that an element holds is what the schema says of its kind. -/
structure Conforms (e : Element) : Prop extends Declared e where
  /-- Each feature is written once. -/
  distinct : (e.children.map (·.feature)).Nodup
  /-- A feature is one of the kind, and holds elements of the kind that the schema names. -/
  contained : ∀ c ∈ e.children, ∃ spec, e.kind.containment? c.feature = some spec ∧
    ∀ child ∈ c.elements, child.kind = spec.kind
  /-- The references of a property are numbered in order. -/
  numbered : ∀ property, (e.referencesOf property).map (·.index) =
    List.range (e.referencesOf property).length

end Element

namespace Lowering

/-- An element that is being built: its plain properties and its references are those of used
keys. -/
structure Declaring (e : Element) (seen : List String) : Prop where
  declared : e.All Element.Declared
  usedPlain : ∀ p ∈ e.properties, p.1 ∈ seen
  usedSites : ∀ site ∈ e.references, site.property ∈ seen

namespace Declaring

variable {e : Element} {seen : List String}

theorem start (kind : ElementKind) (range : TextRange) :
    Declaring { kind := kind, range := range } [] where
  declared := by
    refine .intro ⟨?_, ?_, rfl, ?_, ?_, List.nodup_nil, ?_⟩ ?_ <;>
      simp [Element.referencesOf]
  usedPlain := List.forall_mem_nil _
  usedSites := List.forall_mem_nil _

theorem declareId (h : Declaring e seen) (hdeclares : e.kind.declaresId = true)
    (entry : Entry) : Declaring (declareId e entry).1 ("id" :: seen) := by
  obtain ⟨⟨hhere, hnested⟩, hplain, hsites⟩ := h
  refine ⟨?_, ?_, ?_⟩ <;> unfold Lowering.declareId <;> split
  · exact .intro { hhere with identified := fun _ => hdeclares, located := rfl } hnested
  · exact .intro hhere hnested
  · exact fun p hp => List.mem_cons_of_mem _ (hplain p hp)
  · exact fun p hp => List.mem_cons_of_mem _ (hplain p hp)
  · exact fun site hsite => List.mem_cons_of_mem _ (hsites site hsite)
  · exact fun site hsite => List.mem_cons_of_mem _ (hsites site hsite)

theorem addPlain (h : Declaring e seen) (entry : Entry) (hkey : entry.key ∉ seen)
    (hid : ¬(entry.key = "id" ∧ e.kind.declaresId = true))
    (hcontainment : e.kind.containment? entry.key = none)
    (hreference : e.kind.reference? entry.key = none) :
    Declaring (addPlain e entry) (entry.key :: seen) := by
  obtain ⟨⟨hhere, hnested⟩, hplain, hsites⟩ := h
  unfold Lowering.addPlain
  split
  · have hnew : entry.key ∉ e.properties.map Prod.fst := by
      intro hmem
      obtain ⟨p, hp, heq⟩ := List.mem_map.mp hmem
      exact hkey (heq ▸ hplain p hp)
    refine ⟨.intro { hhere with plainOnce := ?_, plain := ?_ } hnested, ?_, ?_⟩
    · simpa [List.nodup_append] using ⟨hhere.plainOnce, fun a b hab heq =>
        hnew (List.mem_map.mpr ⟨(a, b), hab, heq⟩)⟩
    · refine List.forall_mem_append.mpr ⟨hhere.plain, List.forall_mem_singleton.mpr ?_⟩
      exact ⟨hid, hcontainment, hreference⟩
    · refine List.forall_mem_append.mpr ⟨fun p hp => List.mem_cons_of_mem _ (hplain p hp), ?_⟩
      exact List.forall_mem_singleton.mpr List.mem_cons_self
    · exact fun site hsite => List.mem_cons_of_mem _ (hsites site hsite)
  · exact ⟨.intro hhere hnested, fun p hp => List.mem_cons_of_mem _ (hplain p hp),
      fun site hsite => List.mem_cons_of_mem _ (hsites site hsite)⟩

theorem addReferences (h : Declaring e seen) {key : String} {spec : ReferenceSpec}
    (hkey : key ∉ seen) (hspec : e.kind.reference? key = some spec) (entry : Entry) :
    Declaring (addReferences e spec entry).1 (key :: seen) := by
  obtain ⟨⟨hhere, hnested⟩, hplain, hsites⟩ := h
  have hproperty : spec.property = key := by simpa using List.find?_some hspec
  refine ⟨.intro { hhere with targeted := ?_, single := ?_ } hnested,
    fun p hp => List.mem_cons_of_mem _ (hplain p hp), used_addReferences hsites hspec entry⟩
  · refine List.forall_mem_append.mpr ⟨hhere.targeted, fun site hsite => ⟨spec, ?_, ?_⟩⟩
    · rw [property_of_mem_sitesOf hsite, hproperty]
      exact hspec
    · obtain ⟨x, -, rfl⟩ := List.mem_map.mp hsite
      rfl
  · intro property other hother hmany
    rw [referencesOf_addReferences hsites hkey hspec]
    split
    · -- one scalar at most is taken of a property that is no list
      rename_i hsame
      subst hsame
      obtain rfl : spec = other := Option.some.inj (hspec.symm.trans hother)
      simp [sitesOf, hmany]
    · exact hhere.single property other hother hmany

theorem addContainment (h : Declaring e seen) {key : String} {spec : ContainmentSpec}
    {elements : List Element} (hspec : e.kind.containment? key = some spec)
    (helements : ∀ child ∈ elements, child.All Element.Declared)
    (hone : spec.many = false → elements.length ≤ 1) :
    Declaring { e with children := e.children ++ [⟨key, elements⟩] } (key :: seen) := by
  obtain ⟨⟨hhere, hnested⟩, hplain, hsites⟩ := h
  refine ⟨.intro { hhere with one := ?_ } ?_, fun p hp => List.mem_cons_of_mem _ (hplain p hp),
    fun site hsite => List.mem_cons_of_mem _ (hsites site hsite)⟩
  · refine List.forall_mem_append.mpr ⟨hhere.one, List.forall_mem_singleton.mpr ?_⟩
    intro other hother hmany
    obtain rfl : spec = other := Option.some.inj (hspec.symm.trans hother)
    exact hone hmany
  · exact List.forall_mem_append.mpr ⟨hnested, List.forall_mem_singleton.mpr helements⟩

end Declaring

theorem preserved_declaring : Preserved Declaring where
  start := Declaring.start
  declareId := Declaring.declareId
  addPlain := Declaring.addPlain
  addReferences := fun h hkey hspec entry => h.addReferences hkey hspec entry
  addContainment := fun h _ hspec helements hone =>
    h.addContainment hspec (fun child hchild => (helements child hchild).2.elim fun _ => (·.declared))
      hone

end Lowering

/-- Every element of a lowered root conforms to the schema. -/
theorem Element.IsLowered.conforms {root : Element} (h : root.IsLowered) :
    ∀ described ∈ root.descendants, described.2.Conforms := by
  intro described hmem
  have hdeclared : described.2.Declared := by
    obtain ⟨members, hroot⟩ := h
    obtain ⟨-, used, hdeclaring⟩ := Lowering.preserved_declaring.root hroot
    exact hdeclaring.declared.of_mem_descendants hmem
  obtain ⟨hdistinct, -⟩ := of_mem_descendants (fun _ ⟨_, nested⟩ => nested) h.distinct hmem
  obtain ⟨hknown, -⟩ := of_mem_descendants (fun _ ⟨_, nested⟩ => nested) h.fitsSchema hmem
  obtain ⟨hnumbered, hkinds, -⟩ :=
    of_mem_descendants (fun _ ⟨_, _, nested⟩ => nested) h.isTyped.2 hmem
  refine { hdeclared with distinct := hdistinct, contained := fun c hc => ?_, numbered := hnumbered }
  obtain ⟨spec, hspec⟩ := Option.isSome_iff_exists.mp (hknown c hc)
  refine ⟨spec, hspec, fun child hchild => ?_⟩
  obtain ⟨other, hother, hkind⟩ := hkinds c hc child hchild
  rw [hkind, Option.some.inj (hspec.symm.trans hother)]

end ModelWorkspace
