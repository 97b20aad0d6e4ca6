import ModelWorkspace.Index.Insert
import ModelWorkspace.Proofs.Element.Conformance
import ModelWorkspace.Proofs.Name.Containment

/-!
# When two elements have one name

A declared name gives way to all names before it, a synthetic one to none: the `@` in it is
what is to keep it apart.  But whatever is written in quotes may be declared, and what is no
identifier is reported and named all the same.  So an element that declares an identifier with
an `@` may get the name that is due to an element without one, and there are no other clashes
(`names_clash_only_at_places`): where no nested element declares an identifier with an `@`, all
names are different, however often an identifier is declared and whatever dots are in it.

Dots do no harm because only leaves declare identifiers: what is nested in an element below
the root, and that element itself, have synthetic names.
-/

namespace ModelWorkspace

namespace Element

/-- An element declares an identifier with an `@`, and the other one declares none. -/
def MayPoseAs (x y : Element) : Prop :=
  (∃ id, x.id = some id ∧ '@' ∈ id.toList) ∧ y.id = none

/-- Directly below the element, only leaves declare identifiers, and nothing declares one
further down. -/
def NamesLeaves (e : Element) : Prop :=
  ∀ c ∈ e.children, ∀ child ∈ c.elements,
    child.children = [] ∨ child.All fun below => below.id = none

variable {root : Element}

/-- By the schema, what is nested in an element below the root declares no identifier, nor does
the element in which it is nested. -/
theorem leaf_or_anonymous {kind : ElementKind} {spec : ContainmentSpec}
    (h : spec ∈ kind.containments) : spec.kind.containments = [] ∨
      spec.kind.declaresId = false ∧ ∀ below ∈ spec.kind.containments,
        below.kind.containments = [] ∧ below.kind.declaresId = false := by
  revert spec
  cases kind <;> decide

theorem Conforms.id_eq_none {e : Element} (h : e.Conforms) (hkind : e.kind.declaresId = false) :
    e.id = none := by
  refine Option.eq_none_iff_forall_ne_some.mpr fun id hid => ?_
  have hdeclares := h.identified (by rw [hid]; rfl)
  rw [hkind] at hdeclares
  cases hdeclares

theorem Conforms.children_eq_nil {e : Element} (h : e.Conforms)
    (hkind : e.kind.containments = []) : e.children = [] := by
  refine List.eq_nil_iff_forall_not_mem.mpr fun c hc => ?_
  obtain ⟨spec, hspec, -⟩ := h.contained c hc
  unfold ElementKind.containment? at hspec
  rw [hkind] at hspec
  cases hspec

theorem IsLowered.namesLeaves (h : root.IsLowered) : root.NamesLeaves := by
  have hall : root.All Conforms := .of_descendants h.conforms
  obtain ⟨hroot, hnested⟩ := hall
  intro c hc child hchild
  obtain ⟨hconforms, hbelow⟩ := hnested c hc child hchild
  obtain ⟨spec, hspec, hkinds⟩ := hroot.contained c hc
  rcases leaf_or_anonymous (List.mem_of_find?_eq_some hspec) with hleaf | ⟨hanonymous, hleaves⟩
  · rw [← hkinds child hchild] at hleaf
    exact .inl (hconforms.children_eq_nil hleaf)
  · rw [← hkinds child hchild] at hanonymous hleaves
    refine .inr (.intro (hconforms.id_eq_none hanonymous) fun d hd leaf hmem => ?_)
    obtain ⟨hleaf, -⟩ := hbelow d hd leaf hmem
    obtain ⟨below, hbelowSpec, hbelowKinds⟩ := hconforms.contained d hd
    obtain ⟨hnone, hdeclares⟩ := hleaves below (List.mem_of_find?_eq_some hbelowSpec)
    rw [← hbelowKinds leaf hmem] at hnone hdeclares
    refine .intro (hleaf.id_eq_none hdeclares) fun other hother => ?_
    rw [hleaf.children_eq_nil hnone] at hother
    exact absurd hother List.not_mem_nil

end Element

namespace Name

open Element

/-! ## Siblings -/

/-- How the name of a sibling is put together. -/
def Spelled (x : (PathStep × Element) × String) : Prop :=
  match x.1.2.id with
  | some declared => ∃ number, x.2 = candidate declared number
  | none => x.2 = synthetic x.1.1.feature x.1.1.index

theorem Spelled.eq_synthetic {x : (PathStep × Element) × String} (h : Spelled x)
    (hid : x.1.2.id = none) : x.2 = synthetic x.1.1.feature x.1.1.index := by
  unfold Spelled at h
  rw [hid] at h
  exact h

/-- A name with an `@` and a dot has been declared. -/
theorem Spelled.exists_id {x : (PathStep × Element) × String} (h : Spelled x)
    (hplace : '@' ∈ x.2.toList) (hdeclared : x.1.2.id ≠ none) :
    ∃ id, x.1.2.id = some id ∧ '@' ∈ id.toList := by
  obtain ⟨id, hid⟩ := Option.ne_none_iff_exists'.mp hdeclared
  unfold Spelled at h
  rw [hid] at h
  obtain ⟨number, hname⟩ := h
  refine ⟨id, hid, ?_⟩
  by_contra hplain
  rw [hname] at hplace
  exact notMem_candidate (by decide) hplain number hplace

/-- Two siblings have the same name only if one of them poses as the other. -/
def ClashByPosing (x y : (PathStep × Element) × String) : Prop :=
  x.2 = y.2 → x.1.2.MayPoseAs y.1.2 ∨ y.1.2.MayPoseAs x.1.2

instance : Std.Symm ClashByPosing :=
  ⟨fun _ _ hpose hsame => (hpose hsame.symm).symm⟩

/-- Siblings have different names, unless a later one declares none and has the name of its
place, which an earlier one has declared. -/
theorem pairwise_siblingNames (named : NamedSiblings) {xs : List (PathStep × Element)}
    (hsteps : (xs.map (·.1)).Nodup) (hfeatures : ∀ x ∈ xs, IsPlain x.1.feature) :
    (xs.zip (siblingNames named (xs.map fun x => (x.1, x.2.id)))).Pairwise ClashByPosing ∧
      ∀ x ∈ xs.zip (siblingNames named (xs.map fun x => (x.1, x.2.id))),
        Spelled x ∧ (x.1.2.id ≠ none → x.2 ∉ named.taken) := by
  induction xs generalizing named with
  | nil => exact ⟨List.Pairwise.nil, fun _ hx => absurd hx List.not_mem_nil⟩
  | cons x rest ih =>
      obtain ⟨hnew, hsteps⟩ := List.nodup_cons.mp hsteps
      obtain ⟨hfeature, hothers⟩ := List.forall_mem_cons.mp hfeatures
      -- the first name, whatever it is, is taken when the others are named
      have hnext : ∀ {own : String} {next : NamedSiblings}, next.taken = own :: named.taken →
          Spelled (x, own) → (x.2.id ≠ none → own ∉ named.taken) →
          ((x :: rest).zip (own :: siblingNames next (rest.map fun x => (x.1, x.2.id)))).Pairwise
              ClashByPosing ∧
            ∀ y ∈ (x :: rest).zip (own :: siblingNames next (rest.map fun x => (x.1, x.2.id))),
              Spelled y ∧ (y.1.2.id ≠ none → y.2 ∉ named.taken) := by
        intro own next htaken hspelled hfree
        obtain ⟨hpairs, hall⟩ := ih next hsteps hothers
        rw [List.zip_cons_cons]
        refine ⟨List.pairwise_cons.mpr ⟨fun y hy heq => ?_, hpairs⟩,
          List.forall_mem_cons.mpr ⟨⟨hspelled, hfree⟩, fun y hy => ?_⟩⟩
        · obtain ⟨hother, hgives⟩ := hall y hy
          dsimp only at heq
          -- a declared name would have given way
          have hanonymous : y.1.2.id = none := by
            by_contra hdeclared
            refine hgives hdeclared ?_
            rw [htaken, ← heq]
            exact List.mem_cons_self
          have hsynthetic := hother.eq_synthetic hanonymous
          refine .inl ⟨hspelled.exists_id ?_ fun hnone => ?_, hanonymous⟩
          · rw [heq, hsynthetic]
            exact at_mem_synthetic y.1.1.feature y.1.1.index
          · have hy' := (List.of_mem_zip hy).1
            have hplaces := (hspelled.eq_synthetic hnone).symm.trans (heq.trans hsynthetic)
            obtain ⟨hsame, hindex⟩ := synthetic_inj hfeature (hothers y.1 hy') hplaces
            have hstep : x.1 = y.1.1 := by
              obtain ⟨⟨feature, index⟩, element⟩ := x
              obtain ⟨⟨⟨feature', index'⟩, element'⟩, name⟩ := y
              cases hsame
              cases hindex
              rfl
            exact hnew (List.mem_map.mpr ⟨y.1, hy', hstep.symm⟩)
        · obtain ⟨hother, hgives⟩ := hall y hy
          refine ⟨hother, fun hdeclared hmem => hgives hdeclared ?_⟩
          rw [htaken]
          exact List.mem_cons_of_mem _ hmem
      rw [List.map_cons]
      cases hid : x.2.id with
      | some declared =>
          rw [siblingNames]
          refine hnext rfl ?_ fun _ => ?_
          · unfold Spelled
            dsimp only
            rw [hid]
            exact ⟨_, rfl⟩
          · rw [NamedSiblings.candidate_number]
            exact freshBy_notMem Function.injective_id named.taken declared
      | none =>
          rw [siblingNames]
          refine hnext rfl ?_ fun hdeclared => absurd hid hdeclared
          unfold Spelled
          dsimp only
          rw [hid]

/-! ## Trees -/

variable {path : ElementPath} {own qualified : String} {a b : ElementName}
  {x y : (PathStep × Element) × String}

/-- A name in a tree is that of its root, or goes on behind it and the root is no leaf. -/
theorem eq_or_below_of_mem_assign {e : Element} (ha : a ∈ assign path own qualified e) :
    a = ⟨path, own, qualified, e.kind⟩ ∨
      e.children ≠ [] ∧ ∃ rest, a.qualified = nested qualified rest := by
  rw [assign_eq] at ha
  rcases List.mem_cons.mp ha with ha | ha
  · exact .inl ha
  · obtain ⟨x, hx, hmem⟩ := List.mem_flatMap.mp ha
    obtain ⟨rest, hrest, -⟩ := (isWithin_of_mem_assign hmem).exists_nested
    refine .inr ⟨fun hleaf => ?_, rest, hrest⟩
    rw [hleaf] at hx
    exact absurd hx List.not_mem_nil

theorem exists_descendant_of_mem_assign {e : Element} (ha : a ∈ assign path own qualified e) :
    ∃ u, (a.path, u) ∈ descendantsFrom path e := by
  have hmem : (a.path, a.kind) ∈
      (assign path own qualified e).map fun name => (name.path, name.kind) :=
    List.mem_map_of_mem ha
  rw [map_assign] at hmem
  obtain ⟨described, hdescribed, heq⟩ := List.mem_map.mp hmem
  refine ⟨described.2, ?_⟩
  rw [← (Prod.mk.inj heq).1]
  exact hdescribed

/-- The elements of a part of a tree: a sibling with what is nested in it. -/
def descendantsOf (path : ElementPath) (x : (PathStep × Element) × String) :
    List (ElementPath × Element) :=
  descendantsFrom (path.child x.1.1.feature x.1.1.index) x.1.2

/-- A sibling whose name goes on behind that of a container has declared it; the container and
all that is in it declare nothing. -/
theorem mayPoseAs_of_eq_nested (hx : Spelled x) (hy : Spelled y)
    (hfeature : IsPlain x.1.1.feature) (hanonymous : y.1.2.All fun below => below.id = none)
    {rest : String} (heq : x.2 = nested y.2 rest) {described : ElementPath × Element}
    (hdescribed : described ∈ descendantsOf path y) : x.1.2.MayPoseAs described.2 := by
  have hname : y.2 = synthetic y.1.1.feature y.1.1.index := by
    obtain ⟨here, -⟩ := hanonymous
    exact hy.eq_synthetic here
  have hchars : x.2.toList = y.2.toList ++ '.' :: rest.toList := by
    rw [heq, nested, String.toList_append, String.toList_append, List.append_assoc]
    rfl
  refine ⟨hx.exists_id ?_ fun hnone => ?_, hanonymous.of_mem_descendants hdescribed⟩
  · rw [hchars, hname]
    exact List.mem_append_left _ (at_mem_synthetic y.1.1.feature y.1.1.index)
  · -- the name of a place has no dot in it
    refine dot_notMem_synthetic hfeature x.1.1.index ?_
    rw [← hx.eq_synthetic hnone, hchars]
    exact List.mem_append_right _ List.mem_cons_self

/-- What two siblings need for their parts of the tree to clash at declared places only. -/
structure Apart (x y : (PathStep × Element) × String) : Prop where
  left : Spelled x
  right : Spelled y
  plainLeft : IsPlain x.1.1.feature
  plainRight : IsPlain y.1.1.feature
  leafLeft : x.1.2.children = [] ∨ x.1.2.All fun below => below.id = none
  leafRight : y.1.2.children = [] ∨ y.1.2.All fun below => below.id = none
  pose : ClashByPosing x y

/-- Names below different siblings are equal only if one poses as the other. -/
theorem Apart.mayPoseAs (h : Apart x y) (ha : a ∈ nestedNames path qualified x)
    (hb : b ∈ nestedNames path qualified y) (heq : a.qualified = b.qualified) :
    ∃ u v, (a.path, u) ∈ descendantsOf path x ∧ (b.path, v) ∈ descendantsOf path y ∧
      (u.MayPoseAs v ∨ v.MayPoseAs u) := by
  obtain ⟨u, hu⟩ := exists_descendant_of_mem_assign ha
  obtain ⟨v, hv⟩ := exists_descendant_of_mem_assign hb
  have hself : ∀ x : (PathStep × Element) × String,
      (path.child x.1.1.feature x.1.1.index, x.1.2) ∈ descendantsOf path x :=
    fun _ => mem_descendantsFrom_iff.mpr (.inl rfl)
  rcases eq_or_below_of_mem_assign ha with rfl | ⟨hcontainer, rest, hrest⟩
  · rcases eq_or_below_of_mem_assign hb with rfl | ⟨hcontainer', rest', hrest'⟩
    · exact ⟨_, _, hself x, hself y, h.pose (nested_right_inj.mp heq)⟩
    · rw [hrest', nested_assoc] at heq
      exact ⟨_, v, hself x, hv, .inl (mayPoseAs_of_eq_nested h.left h.right h.plainLeft
        (h.leafRight.resolve_left hcontainer') (nested_right_inj.mp heq) hv)⟩
  · have hanonymous := h.leafLeft.resolve_left hcontainer
    rw [hrest, nested_assoc] at heq
    rcases eq_or_below_of_mem_assign hb with rfl | ⟨hcontainer', rest', hrest'⟩
    · exact ⟨u, _, hu, hself y, .inr (mayPoseAs_of_eq_nested h.right h.left h.plainRight
        hanonymous (nested_right_inj.mp heq).symm hu)⟩
    · -- two containers are told apart by their places
      exfalso
      obtain ⟨hnone, -⟩ := hanonymous
      obtain ⟨hnone', -⟩ := h.leafRight.resolve_left hcontainer'
      rw [hrest', nested_assoc] at heq
      have hdot : '.' ∉ x.2.toList := by
        rw [h.left.eq_synthetic hnone]
        exact dot_notMem_synthetic h.plainLeft _
      have hdot' : '.' ∉ y.2.toList := by
        rw [h.right.eq_synthetic hnone']
        exact dot_notMem_synthetic h.plainRight _
      have hx : IsWithin (nested qualified x.2) (nested qualified (nested x.2 rest)) :=
        .inr ⟨rest, (nested_assoc qualified x.2 rest).symm⟩
      have hy : IsWithin (nested qualified y.2) (nested qualified (nested x.2 rest)) :=
        .inr ⟨rest', heq.trans (nested_assoc qualified y.2 rest').symm⟩
      have hsame : x.2 = y.2 := eq_of_isWithin_nested hx hy hdot hdot'
      rcases h.pose hsame with ⟨⟨id, hid, -⟩, -⟩ | ⟨⟨id, hid, -⟩, -⟩
      · rw [hnone] at hid
        cases hid
      · rw [hnone'] at hid
        cases hid

/-- Names in the part of one sibling are different. -/
theorem path_eq_of_nestedNames {e : Element} (hdistinct : e.HasDistinctFeatures)
    (hschema : e.FitsSchema) (hleaf : e.children = [] ∨ e.All fun below => below.id = none)
    (ha : a ∈ assign path own qualified e) (hb : b ∈ assign path own qualified e)
    (heq : a.qualified = b.qualified) : a.path = b.path := by
  rcases hleaf with hleaf | hanonymous
  · obtain rfl := (eq_or_below_of_mem_assign ha).resolve_right fun hbelow => hbelow.1 hleaf
    obtain rfl := (eq_or_below_of_mem_assign hb).resolve_right fun hbelow => hbelow.1 hleaf
    rfl
  · have hnameable : e.IsNameable := by
      refine hdistinct.isNameable hschema
        fun described (hmem : described ∈ descendantsFrom path e) id hid => ?_
      rw [hanonymous.of_mem_descendants hmem] at hid
      cases hid
    rw [List.inj_on_of_nodup_map (nodup_assign hnameable path own qualified) ha hb heq]

/-- Two elements of a tree have the same name only if they are below its root, and one of them
poses as the other. -/
theorem mayPoseAs_of_mem_assign {e : Element} (hdistinct : e.HasDistinctFeatures)
    (hschema : e.FitsSchema) (hleaves : e.NamesLeaves) (ha : a ∈ assign path own qualified e)
    (hb : b ∈ assign path own qualified e) (hne : a.path ≠ b.path)
    (heq : a.qualified = b.qualified) :
    a.path ≠ path ∧ b.path ≠ path ∧
      ∃ u v, (a.path, u) ∈ descendantsFrom path e ∧ (b.path, v) ∈ descendantsFrom path e ∧
        (u.MayPoseAs v ∨ v.MayPoseAs u) := by
  obtain ⟨hnodup, hnested⟩ := hdistinct
  obtain ⟨hknown, hfits⟩ := hschema
  have hplace : ∀ {x}, x ∈ (e.children.flatMap stepsOf).zip (childNames e.children) →
      ∃ c ∈ e.children, x.1.2 ∈ c.elements ∧ x.1.1.feature = c.feature := by
    intro x hx
    obtain ⟨c, hc, hchild⟩ := List.mem_flatMap.mp (List.of_mem_zip hx).1
    exact ⟨c, hc, (step_of_mem_stepsOf hchild).2, (step_of_mem_stepsOf hchild).1⟩
  have hplain : ∀ s ∈ e.children.flatMap stepsOf, IsPlain s.1.feature := by
    intro s hs
    obtain ⟨c, hc, hchild⟩ := List.mem_flatMap.mp hs
    rw [(step_of_mem_stepsOf hchild).1]
    exact ElementKind.isPlain_feature (hknown c hc)
  have hlisted : ∀ {x}, x ∈ (e.children.flatMap stepsOf).zip (childNames e.children) →
      ∀ described ∈ descendantsOf path x,
        described.1 ≠ path ∧ described ∈ descendantsFrom path e := by
    intro x hx described hmem
    constructor
    · obtain ⟨c, hc, hchild, -⟩ := hplace hx
      obtain ⟨rest, hpath, -⟩ := exists_walk_of_mem_descendantsFrom (hnested c hc _ hchild) hmem
      intro hsame
      have hlength := congrArg List.length (hpath.symm.trans hsame)
      simp only [ElementPath.child, List.length_append, List.length_singleton] at hlength
      omega
    · rw [descendantsFrom_eq]
      exact List.mem_cons_of_mem _ (List.mem_flatMap.mpr ⟨x.1, (List.of_mem_zip hx).1, hmem⟩)
  obtain ⟨hpairs, hspelled⟩ := pairwise_siblingNames .empty
    (nodup_steps hnodup) hplain
  rw [assign_eq] at ha hb
  -- what is nested has a longer name than the root
  have hlonger : ∀ {c}, c ∈ ((e.children.flatMap stepsOf).zip (childNames e.children)).flatMap
      (nestedNames path qualified) → c.qualified ≠ qualified := by
    intro c hc hsame
    obtain ⟨x, -, hmem⟩ := List.mem_flatMap.mp hc
    obtain ⟨rest, hrest, -⟩ := (isWithin_of_mem_assign hmem).exists_nested
    exact nested_ne qualified rest (hrest.symm.trans hsame)
  rcases List.mem_cons.mp ha with rfl | ha
  · rcases List.mem_cons.mp hb with rfl | hb
    · exact absurd rfl hne
    · exact absurd heq.symm (hlonger hb)
  · rcases List.mem_cons.mp hb with rfl | hb
    · exact absurd heq (hlonger ha)
    · obtain ⟨x, hx, ha⟩ := List.mem_flatMap.mp ha
      obtain ⟨y, hy, hb⟩ := List.mem_flatMap.mp hb
      obtain ⟨c, hc, hchild, hfeature⟩ := hplace hx
      obtain ⟨d, hd, hchild', hfeature'⟩ := hplace hy
      by_cases hxy : x = y
      · subst hxy
        exact absurd (path_eq_of_nestedNames (hnested c hc _ hchild) (hfits c hc _ hchild)
          (hleaves c hc _ hchild) ha hb heq) hne
      · have hapart : Apart x y :=
          ⟨(hspelled x hx).1, (hspelled y hy).1, hplain _ (List.of_mem_zip hx).1,
            hplain _ (List.of_mem_zip hy).1, hleaves c hc _ hchild, hleaves d hd _ hchild',
            hpairs.forall hx hy hxy⟩
        obtain ⟨u, v, hu, hv, hwhy⟩ := hapart.mayPoseAs ha hb heq
        exact ⟨(hlisted hx _ hu).1, (hlisted hy _ hv).1, u, v, (hlisted hx _ hu).2,
          (hlisted hy _ hv).2, hwhy⟩

end Name

namespace Naming

open Name Element

/-- **Names are unique, apart from those that are declared for another place.**  Whatever name
the root of a text gets, the elements are named one by one, in the order they are written, and
each path once.  Two elements at different paths have the same name only if both are below the
root, one of them declares an identifier with an `@`, and the other one declares none.  So all
names are different if no element below the root declares an identifier with an `@`. -/
theorem names_clash_only_by_posing {text : String} {root : Element}
    (h : (Document.ofText text).root = some root) (rootName : String) :
    let names := (Naming.withRootName root rootName).names
    names.map (fun name => (name.path, name.kind)) =
        root.descendants.map (fun described => (described.1, described.2.kind)) ∧
      (names.map (·.path)).Nodup ∧
      (∀ a ∈ names, ∀ b ∈ names, a.path ≠ b.path → a.qualified = b.qualified →
        a.path ≠ ElementPath.root ∧ b.path ≠ ElementPath.root ∧
          ∃ u v, root.walk a.path = some u ∧ root.walk b.path = some v ∧
            (u.MayPoseAs v ∨ v.MayPoseAs u)) ∧
      ((∀ described ∈ root.descendants, described.1 ≠ ElementPath.root →
          ∀ id, described.2.id = some id → '@' ∉ id.toList) →
        (names.map (·.qualified)).Nodup) := by
  intro names
  have hlowered := Document.isLowered_root h
  have hpaths := nodup_path_assign hlowered.distinct ElementPath.root rootName rootName
  have hclash : ∀ a ∈ names, ∀ b ∈ names, a.path ≠ b.path → a.qualified = b.qualified →
      a.path ≠ ElementPath.root ∧ b.path ≠ ElementPath.root ∧
        ∃ u v, (a.path, u) ∈ root.descendants ∧ (b.path, v) ∈ root.descendants ∧
          (u.MayPoseAs v ∨ v.MayPoseAs u) :=
    fun a ha b hb hne heq => mayPoseAs_of_mem_assign hlowered.distinct hlowered.fitsSchema
      hlowered.namesLeaves ha hb hne heq
  refine ⟨map_assign root ElementPath.root rootName rootName, hpaths, ?_, fun hplain => ?_⟩
  · intro a ha b hb hne heq
    obtain ⟨hnot, hnot', u, v, hu, hv, hwhy⟩ := hclash a ha b hb hne heq
    exact ⟨hnot, hnot', u, v, walk_of_mem_descendants hlowered.distinct hu,
      walk_of_mem_descendants hlowered.distinct hv, hwhy⟩
  · refine List.pairwise_map.mpr ((List.pairwise_map.mp hpaths).imp_of_mem ?_)
    intro a b ha hb hne heq
    obtain ⟨hnot, hnot', u, v, hu, hv, hwhy⟩ := hclash a ha b hb hne heq
    rcases hwhy with ⟨⟨id, hid, hat⟩, -⟩ | ⟨⟨id, hid, hat⟩, -⟩
    · exact hplain _ hu hnot id hid hat
    · exact hplain _ hv hnot' id hid hat

/-- An entity that declares one attribute twice, one with a dot in its name, one with a suffix
and one without a name. -/
def crowdedText : String :=
  "entity:\n  id: E\n  attributes:\n    - id: Id\n    - id: Id1\n    - id: Id\n" ++
    "    - id: \"Id.Id\"\n    - name: x\n"

theorem names_clash_only_by_posing_crowded :
    ∃ root, (Document.ofText crowdedText).root = some root ∧
      (∀ described ∈ root.descendants, described.1 ≠ ElementPath.root →
        ∀ id, described.2.id = some id → '@' ∉ id.toList) ∧
      ((Naming.withRootName root "E").names.map (·.qualified)).Nodup := by
  have hfacts : (Document.ofText crowdedText).root.map (fun root =>
      root.descendants.all fun described => described.2.id.all fun id => !id.toList.contains '@') =
        some true := by
    decide +kernel
  obtain ⟨root, hroot, hall⟩ := Option.map_eq_some_iff.mp hfacts
  have hplain : ∀ described ∈ root.descendants, described.1 ≠ ElementPath.root →
      ∀ id, described.2.id = some id → '@' ∉ id.toList := by
    intro described hmem _ id hid
    have hone := List.all_eq_true.mp hall described hmem
    rw [hid] at hone
    simpa using hone
  exact ⟨root, hroot, hplain, (names_clash_only_by_posing hroot "E").2.2.2 hplain⟩

/-- An entity with an attribute that declares the name which is due to the next one. -/
def posingText : String :=
  "entity:\n  id: E\n  attributes:\n    - id: \"attributes@1\"\n    - name: x\n"

/-- Two attributes have one name, and the second one gets no entry in the index. -/
theorem attribute_may_take_place_name :
    ∃ root, (Document.ofText posingText).root = some root ∧ root.descendants.length = 3 ∧
      ¬ ((Naming.withRootName root "E").names.map (·.qualified)).Nodup ∧
      (Index.empty.insertUnit ⟨⟨"/p/a.cm"⟩, "p", root, "E"⟩).1 = 2 := by
  have hfacts : (Document.ofText posingText).root.map (fun root =>
      (root.descendants.length, (Naming.withRootName root "E").names.map (·.qualified),
        (Index.empty.insertUnit ⟨⟨"/p/a.cm"⟩, "p", root, "E"⟩).1)) =
      some (3, ["E", "E.attributes@1", "E.attributes@1"], 2) := by
    decide +kernel
  obtain ⟨root, hroot, hall⟩ := Option.map_eq_some_iff.mp hfacts
  simp only [Prod.mk.injEq] at hall
  obtain ⟨hcount, hnames, hinserted⟩ := hall
  refine ⟨root, hroot, hcount, ?_, hinserted⟩
  rw [hnames]
  decide

end Naming
end ModelWorkspace
