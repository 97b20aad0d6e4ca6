import ModelWorkspace.Proofs.Element.Lowering
import ModelWorkspace.Proofs.Tree.Core

/-!
# Elements without their places

What is left of an outline and of elements if every range is erased.  The outline depends on
the core of a tree only (`Outline.unplaced_ofTree`), and to make elements of an outline is the
same before and after the ranges are erased (`Lowering.root_unplaced`).
-/

namespace ModelWorkspace

/-! ## Erasing ranges -/

/-- The range that stands for every other one. -/
def TextRange.erased : TextRange :=
  TextRange.empty 0

/-- A scalar without its place. -/
def Scalar.unplaced (s : Scalar) : Scalar :=
  { s with range := .erased }

/-- A value without its places. -/
def Value.unplaced : Value → Value
  | .scalar s => .scalar s.unplaced
  | .list _ items => .list .erased (items.map Scalar.unplaced)

mutual

/-- A member without its places. -/
def Member.unplaced : Member → Member
  | .property _ key _ value block members =>
    .property .erased key .erased (value.map Value.unplaced) (block.map fun _ => .erased)
      (Member.allUnplaced members)
  | .item _ value members =>
    .item .erased (value.map Value.unplaced) (Member.allUnplaced members)
termination_by structural m => m

/-- Members without their places. -/
def Member.allUnplaced : List Member → List Member
  | [] => []
  | m :: ms => m.unplaced :: Member.allUnplaced ms
termination_by structural ms => ms

end

theorem Member.allUnplaced_eq_map (ms : List Member) :
    Member.allUnplaced ms = ms.map Member.unplaced := by
  induction ms with
  | nil => rfl
  | cons m ms ih => rw [Member.allUnplaced, ih, List.map_cons]

@[simp] theorem Member.allUnplaced_append (ms others : List Member) :
    Member.allUnplaced (ms ++ others) = Member.allUnplaced ms ++ Member.allUnplaced others := by
  rw [Member.allUnplaced_eq_map, List.map_append, ← Member.allUnplaced_eq_map,
    ← Member.allUnplaced_eq_map]

/-! ## Outlines -/

namespace Outline

variable {β γ : Type} {f : Nat × Tree → Option β} {g : β → γ}

/-- What `f` finds in a tree, as far as `g` looks at it, it finds in the core, wherever the
tree stands. -/
structure SeesCore (f : Nat × Tree → Option β) (g : β → γ) : Prop where
  leaf : ∀ a t, t.kind.isLiteral = false → f (a, .leaf t) = none
  error : ∀ a children, f (a, .node .error children) = none
  literal : ∀ a b t, (f (b, .leaf { t with offset := 0 })).map g = (f (a, .leaf t)).map g
  node : ∀ a b kind children,
    (f (b, .node kind (Tree.allCore children))).map g = (f (a, .node kind children)).map g

theorem SeesCore.filterMap (h : SeesCore f g) (a b : Nat) (ts : List Tree) :
    ((placed b (Tree.allCore ts)).filterMap f).map g = ((placed a ts).filterMap f).map g := by
  -- a tree with a core adds the same on both sides, and one without adds nothing
  have hcons : ∀ {a b : Nat} {t c : Tree} {ts us : List Tree},
      (f (b, c)).map g = (f (a, t)).map g →
      ((placed (b + c.width) us).filterMap f).map g =
        ((placed (a + t.width) ts).filterMap f).map g →
      ((placed b (c :: us)).filterMap f).map g = ((placed a (t :: ts)).filterMap f).map g := by
    intro a b t c ts us hc hus
    rw [placed, placed, List.filterMap_cons, List.filterMap_cons]
    cases hct : f (b, c) <;> cases ht : f (a, t) <;> rw [hct, ht] at hc
    · exact hus
    · cases hc
    · cases hc
    · rw [List.map_cons, List.map_cons, hus, Option.some.inj hc]
  have hskip : ∀ {a : Nat} {t : Tree} {ts : List Tree}, f (a, t) = none →
      ((placed a (t :: ts)).filterMap f).map g =
        ((placed (a + t.width) ts).filterMap f).map g := by
    intro a t ts ht
    rw [placed, List.filterMap_cons_none ht]
  induction ts generalizing a b with
  | nil => rfl
  | cons t ts ih =>
      cases t with
      | leaf t =>
          cases hliteral : t.kind.isLiteral with
          | true =>
              rw [Tree.allCore_cons, Tree.core, if_pos hliteral]
              exact hcons (h.literal a b t) (ih _ _)
          | false =>
              rw [Tree.allCore_cons, Tree.core_leaf hliteral, hskip (h.leaf a t hliteral)]
              exact ih _ _
      | node kind children =>
          by_cases hkind : kind = .error
          · subst hkind
            rw [Tree.allCore_cons, Tree.core_error, hskip (h.error a children)]
            exact ih _ _
          · rw [Tree.allCore_cons, Tree.core_node hkind]
            exact hcons (h.node a b kind children) (ih _ _)

theorem SeesCore.findSome? (h : SeesCore f g) (a b : Nat) (ts : List Tree) :
    ((placed b (Tree.allCore ts)).findSome? f).map g = ((placed a ts).findSome? f).map g := by
  rw [← List.head?_filterMap, ← List.head?_filterMap, ← List.head?_map, ← List.head?_map,
    h.filterMap a b ts]

theorem map_snd_placed (start : Nat) (ts : List Tree) :
    (placed start ts).map Prod.snd = ts := by
  induction ts generalizing start with
  | nil => rfl
  | cons t ts ih => rw [placed, List.map_cons, ih]

theorem filterMap_placed (k : Tree → Option β) (start : Nat) (ts : List Tree) :
    (placed start ts).filterMap (fun x => k x.2) = ts.filterMap k := by
  have hmap := List.filterMap_map (f := Prod.snd) (g := k) (l := placed start ts)
  rw [map_snd_placed] at hmap
  exact hmap.symm

/-! ### Scalars and values -/

/-- The text of an identifier. -/
def identText? : Tree → Option String
  | .leaf t => if t.kind = .ident then some t.text else none
  | .node _ _ => none

theorem segments_eq (children : List Tree) :
    segments children = children.filterMap identText? := by
  rw [segments, List.filterMap_filterMap]
  refine congrArg (children.filterMap ·) (funext fun t => ?_)
  cases t <;> rfl

/-- The token of a leaf that is a literal. -/
def literal? : Tree → Option Token
  | .leaf t => if t.kind.isLiteral then some t else none
  | .node _ _ => none

theorem find?_isLiteral (children : List Tree) :
    (children.filterMap token?).find? (·.kind.isLiteral) =
      (children.filterMap literal?).head? := by
  rw [← List.head?_filter, List.filter_filterMap]
  refine congrArg (fun k => (children.filterMap k).head?) (funext fun t => ?_)
  cases t with
  | leaf t => simp [token?, literal?, Option.filter]
  | node => rfl

/-- What is found in trees whatever their place. -/
theorem SeesCore.trees {k : Tree → Option β} (h : SeesCore (fun x => k x.2) g)
    (ts : List Tree) : ((Tree.allCore ts).filterMap k).map g = (ts.filterMap k).map g := by
  rw [← filterMap_placed k 0, ← filterMap_placed k 0, h.filterMap 0 0 ts]

theorem seesCore_identText? : SeesCore (fun x => identText? x.2) id where
  leaf := by
    intro a t ht
    have hkind : t.kind ≠ .ident := fun hkind => by rw [hkind] at ht; cases ht
    exact if_neg hkind
  error _ _ := rfl
  literal _ _ _ := rfl
  node _ _ _ _ := rfl

theorem segments_allCore (children : List Tree) :
    segments (Tree.allCore children) = segments children := by
  have hnames := seesCore_identText?.trees children
  rwa [List.map_id, List.map_id, ← segments_eq, ← segments_eq] at hnames

theorem seesCore_literal? :
    SeesCore (fun x => literal? x.2) (fun t => (t.kind, t.chars)) where
  leaf := fun _ t ht => if_neg (by rw [ht]; decide)
  error _ _ := rfl
  literal := by
    intro a b t
    by_cases ht : t.kind.isLiteral = true <;> simp [literal?, ht]
  node _ _ _ _ := rfl

theorem seesCore_nameParts? : SeesCore (fun x => nameParts? x.2) segments where
  leaf _ _ _ := rfl
  error _ _ := rfl
  literal _ _ _ := rfl
  node := by
    intro a b kind children
    cases kind <;> first | rfl | exact congrArg some (segments_allCore children)

/-- The scalar with the names of a dotted name, or with a literal. -/
theorem unplaced_scalarOf (a b : Nat) (children : List Tree) :
    (scalarOf b (Tree.allCore children)).unplaced = (scalarOf a children).unplaced := by
  have hnames := seesCore_nameParts?.trees children
  have hliteral := seesCore_literal?.trees children
  have hnames' : ((Tree.allCore children).findSome? nameParts?).map segments =
      (children.findSome? nameParts?).map segments := by
    rw [← List.head?_filterMap, ← List.head?_filterMap, ← List.head?_map, ← List.head?_map, hnames]
  have hliteral' : (((Tree.allCore children).filterMap token?).find? (·.kind.isLiteral)).map
        (fun t => (t.kind, t.chars)) =
      ((children.filterMap token?).find? (·.kind.isLiteral)).map
        (fun t => (t.kind, t.chars)) := by
    rw [find?_isLiteral, find?_isLiteral, ← List.head?_map, ← List.head?_map, hliteral]
  unfold scalarOf
  dsimp only
  cases hcore : (Tree.allCore children).findSome? nameParts? <;>
    cases hparts : children.findSome? nameParts? <;> rw [hcore, hparts] at hnames'
  · dsimp only
    cases hcore' : ((Tree.allCore children).filterMap token?).find? (·.kind.isLiteral) <;>
      cases hfound : (children.filterMap token?).find? (·.kind.isLiteral) <;>
      rw [hcore', hfound] at hliteral'
    · rfl
    · cases hliteral'
    · cases hliteral'
    · obtain ⟨hkind, hchars⟩ := Prod.mk.inj (Option.some.inj hliteral')
      dsimp only at hkind hchars ⊢
      rw [hkind, Token.text, Token.text, hchars]
      split
      · rfl
      · split <;> rfl
  · cases hnames'
  · cases hnames'
  · dsimp only
    rw [Option.some.inj hnames']
    rfl

theorem seesCore_scalar? : SeesCore scalar? Scalar.unplaced where
  leaf _ _ _ := rfl
  error _ _ := rfl
  literal _ _ _ := rfl
  node := by
    intro a b kind children
    cases kind <;> first | rfl | exact congrArg some (unplaced_scalarOf a b children)

theorem seesCore_value? : SeesCore value? Value.unplaced where
  leaf _ _ _ := rfl
  error _ _ := rfl
  literal _ _ _ := rfl
  node := by
    intro a b kind children
    have hscalar := congrArg (fun s => some (Value.scalar s)) (unplaced_scalarOf a b children)
    have hlist := congrArg (fun items => some (Value.list .erased items))
      (seesCore_scalar?.filterMap a b children)
    cases kind <;> first | rfl | exact hscalar | exact hlist

theorem seesCore_block? : SeesCore block? (fun _ => TextRange.erased) where
  leaf _ _ _ := rfl
  error _ _ := rfl
  literal _ _ _ := rfl
  node := by
    intro a b kind children
    cases kind <;> rfl

/-! ### Members -/

/-- The key that a leaf is. -/
def keyOf? : Nat × Tree → Option (String × TextRange)
  | (start, .leaf t) => if t.kind = .ident then some (t.text, rangeAt start (.leaf t)) else none
  | (_, .node _ _) => none

theorem key?_eq (children : List (Nat × Tree)) : key? children = children.findSome? keyOf? := by
  rw [key?]
  refine congrArg (children.findSome? ·) (funext fun x => ?_)
  obtain ⟨start, t⟩ := x
  cases t <;> rfl

theorem seesCore_keyOf? : SeesCore keyOf? Prod.fst where
  leaf := by
    intro a t ht
    have hkind : t.kind ≠ .ident := fun hkind => by rw [hkind] at ht; cases ht
    exact if_neg hkind
  error _ _ := rfl
  literal := by
    intro a b t
    by_cases ht : t.kind = .ident <;> simp [keyOf?, ht, Token.text]
  node _ _ _ _ := rfl

theorem members_append (start : Nat) (ts us : List Tree) :
    members start (ts ++ us) =
      members start ts ++ members (start + Tree.totalWidth ts) us := by
  induction ts generalizing start with
  | nil => rfl
  | cons t ts ih =>
      rw [List.cons_append, members, members, ih, Tree.totalWidth, Nat.add_assoc,
        List.append_assoc]

mutual

theorem unplaced_member (a b : Nat) : (t : Tree) →
    Member.allUnplaced (members b t.core) = Member.allUnplaced (member a t)
  | .leaf t => by
      rw [Tree.core]
      split <;> rfl
  | .node kind children => by
      have hmembers := unplaced_members a b children
      have hblock := unplaced_firstBlock a b children
      have hvalue := seesCore_value?.findSome? a b children
      have hrange := seesCore_block?.findSome? a b children
      have hkey := seesCore_keyOf?.findSome? a b children
      rw [← key?_eq, ← key?_eq] at hkey
      by_cases hproperty : kind = .property
      · subst hproperty
        rw [Tree.core_node (by decide), members, members, List.append_nil, member, member]
        cases hcore : key? (placed b (Tree.allCore children)) <;>
          cases hfound : key? (placed a children) <;> rw [hcore, hfound] at hkey
        · cases hkey
        · cases hkey
        · have hname := Option.some.inj hkey
          simp only [Member.allUnplaced, Member.unplaced, hvalue, hrange, hblock, hname]
      · by_cases hitem : kind = .listItem
        · subst hitem
          rw [Tree.core_node (by decide), members, members, List.append_nil, member, member]
          simp only [Member.allUnplaced, Member.unplaced, hvalue, hmembers]
        · have hnone : ∀ (start : Nat) (children : List Tree),
              member start (.node kind children) = [] := by
            intro start children
            revert hproperty hitem
            cases kind <;> simp [member]
          rw [Tree.core]
          split
          · rw [hnone]
            rfl
          · rw [members, members, hnone, hnone]
            rfl

theorem unplaced_members (a b : Nat) : (ts : List Tree) →
    Member.allUnplaced (members b (Tree.allCore ts)) = Member.allUnplaced (members a ts)
  | [] => rfl
  | t :: ts => by
      rw [Tree.allCore_cons, members_append, members, Member.allUnplaced_append,
        Member.allUnplaced_append, unplaced_member a b t, unplaced_members]

theorem unplaced_firstBlock (a b : Nat) : (ts : List Tree) →
    Member.allUnplaced (firstBlock b (Tree.allCore ts)) = Member.allUnplaced (firstBlock a ts)
  | [] => rfl
  | .leaf t :: ts => by
      rw [Tree.allCore_cons, Tree.core, firstBlock]
      split
      · rw [List.singleton_append, firstBlock]
        exact unplaced_firstBlock _ _ ts
      · exact unplaced_firstBlock _ _ ts
  | .node kind children :: ts => by
      by_cases hkind : kind = .error
      · subst hkind
        rw [Tree.allCore_cons, Tree.core_error, List.nil_append, firstBlock]
        exact unplaced_firstBlock _ _ ts
      · rw [Tree.allCore_cons, Tree.core_node hkind, List.singleton_append, firstBlock,
          firstBlock]
        by_cases hblock : kind = .block
        · subst hblock
          exact unplaced_members a b children
        · have hnone : ∀ (start : Nat) (children : List Tree),
              block? (start, .node kind children) = none := by
            intro start children
            revert hblock
            cases kind <;> simp [block?]
          rw [hnone, hnone]
          exact unplaced_firstBlock _ _ ts

end

/-- Trees with the same core have the same outline, up to the places. -/
theorem unplaced_ofTree {kind : SyntaxKind} {ts us : List Tree}
    (h : Tree.allCore ts = Tree.allCore us) :
    Member.allUnplaced (ofTree (.node kind ts)) = Member.allUnplaced (ofTree (.node kind us)) := by
  rw [ofTree, ofTree, ← unplaced_members 0 0 ts, ← unplaced_members 0 0 us, h]

end Outline
/-! ## Elements -/

/-- A reference without its place. -/
def ReferenceSite.unplaced (site : ReferenceSite) : ReferenceSite :=
  { site with range := .erased }

/-- A report without its place. -/
def SyntaxError.unplaced (e : SyntaxError) : SyntaxError :=
  { e with range := .erased }

mutual

/-- An element without its places, nor those of the elements nested in it. -/
def Element.unplaced : Element → Element
  | ⟨kind, id, idRange, _, properties, references, children⟩ =>
    ⟨kind, id, idRange.map fun _ => .erased, .erased, properties,
      references.map ReferenceSite.unplaced, Element.unplacedAll children⟩
termination_by structural e => e

/-- Containments without the places of their elements. -/
def Element.unplacedAll : List (Containment Element) → List (Containment Element)
  | [] => []
  | c :: cs => Element.unplacedOne c :: Element.unplacedAll cs
termination_by structural cs => cs

/-- A containment without the places of its elements. -/
def Element.unplacedOne : Containment Element → Containment Element
  | ⟨feature, elements⟩ => ⟨feature, Element.unplacedList elements⟩
termination_by structural c => c

/-- Elements without their places. -/
def Element.unplacedList : List Element → List Element
  | [] => []
  | e :: es => e.unplaced :: Element.unplacedList es
termination_by structural es => es

end

namespace Element

theorem unplacedAll_eq_map (cs : List (Containment Element)) :
    unplacedAll cs = cs.map unplacedOne := by
  induction cs with
  | nil => rfl
  | cons c cs ih => rw [unplacedAll, ih, List.map_cons]

theorem unplacedList_eq_map (es : List Element) : unplacedList es = es.map unplaced := by
  induction es with
  | nil => rfl
  | cons e es ih => rw [unplacedList, ih, List.map_cons]

theorem unplaced_eq (e : Element) :
    e.unplaced =
      { kind := e.kind, id := e.id, idRange := e.idRange.map fun _ => .erased, range := .erased,
        properties := e.properties, references := e.references.map ReferenceSite.unplaced,
        children := e.children.map unplacedOne } := by
  cases e
  rw [unplaced, unplacedAll_eq_map]

@[simp] theorem kind_unplaced (e : Element) : e.unplaced.kind = e.kind := by
  rw [unplaced_eq]

end Element

namespace Lowering

/-- An entry without its places. -/
def Entry.unplaced (entry : Entry) : Entry :=
  ⟨entry.key, .erased, entry.value.map Value.unplaced, entry.block.map fun _ => .erased,
    Member.allUnplaced entry.members⟩

/-- The reports without their places. -/
def reports (errors : List SyntaxError) : List SyntaxError :=
  errors.map SyntaxError.unplaced

theorem reports_append (errors others : List SyntaxError) :
    reports (errors ++ others) = reports errors ++ reports others :=
  List.map_append

theorem scalars_unplaced (value : Value) :
    value.unplaced.scalars = value.scalars.map Scalar.unplaced := by
  cases value <;> rfl

theorem referenceScalars_unplaced (value : Option Value) (members : List Member) :
    referenceScalars (value.map Value.unplaced) (Member.allUnplaced members) =
      (referenceScalars value members).map Scalar.unplaced := by
  cases value with
  | some value => exact scalars_unplaced value
  | none =>
      rw [Option.map_none, referenceScalars, referenceScalars, Member.allUnplaced_eq_map,
        List.flatMap_map, List.map_flatMap]
      refine congrArg (members.flatMap ·) (funext fun m => ?_)
      cases m with
      | property => rfl
      | item range value members =>
          cases value with
          | none => rfl
          | some value => exact scalars_unplaced value

theorem sitesOf_unplaced (spec : ReferenceSpec) (scalars : List Scalar) :
    sitesOf spec (scalars.map Scalar.unplaced) =
      (sitesOf spec scalars).map ReferenceSite.unplaced := by
  rw [sitesOf, sitesOf, List.zipIdx_map, List.map_map, List.map_map]
  rfl

theorem plainText_unplaced (value : Value) : plainText value.unplaced = plainText value := by
  cases value with
  | scalar s => rfl
  | list range items =>
      rw [Value.unplaced, plainText, plainText, List.map_map]
      rfl

theorem firstPropertyKey?_unplaced (members : List Member) :
    firstPropertyKey? (Member.allUnplaced members) =
      (firstPropertyKey? members).map fun _ => .erased := by
  rw [firstPropertyKey?, firstPropertyKey?, Member.allUnplaced_eq_map]
  induction members with
  | nil => rfl
  | cons m ms ih =>
      cases m with
      | property => rfl
      | item => exact ih

theorem declareId_unplaced (e : Element) (entry : Entry) :
    declareId e.unplaced entry.unplaced =
      ((declareId e entry).1.unplaced, reports (declareId e entry).2) := by
  obtain ⟨key, keyRange, value, block, members⟩ := entry
  unfold declareId
  cases value with
  | none => rfl
  | some value =>
      cases value with
      | scalar s =>
          simp only [Entry.unplaced, Option.map_some, Value.unplaced, Element.unplaced_eq]
          rfl
      | list => rfl

theorem addReferences_unplaced (e : Element) (spec : ReferenceSpec) (entry : Entry) :
    addReferences e.unplaced spec entry.unplaced =
      ((addReferences e spec entry).1.unplaced, reports (addReferences e spec entry).2) := by
  have hscalars : ∀ scalars : List Scalar,
      (if spec.many = true then scalars.map Scalar.unplaced
        else (scalars.map Scalar.unplaced).take 1) =
      (if spec.many = true then scalars else scalars.take 1).map Scalar.unplaced := by
    intro scalars
    split
    · rfl
    · exact List.map_take.symm
  unfold addReferences
  simp only [Entry.unplaced, referenceScalars_unplaced, List.length_map, hscalars,
    sitesOf_unplaced]
  refine Prod.ext ?_ ?_
  · simp only [Element.unplaced_eq, List.map_append]
  · dsimp only
    split <;> rfl

theorem addPlain_unplaced (e : Element) (entry : Entry) :
    addPlain e.unplaced entry.unplaced = (addPlain e entry).unplaced := by
  obtain ⟨key, keyRange, value, block, members⟩ := entry
  unfold addPlain
  cases value with
  | none => rfl
  | some value =>
      simp only [Entry.unplaced, Option.map_some, plainText_unplaced, Element.unplaced_eq]

theorem listReports_unplaced (entry : Entry) :
    listReports entry.unplaced = (listReports entry).map reports := by
  obtain ⟨key, keyRange, value, block, members⟩ := entry
  unfold listReports
  simp only [Entry.unplaced, firstPropertyKey?_unplaced, Option.isSome_map]
  split
  · rfl
  · cases firstPropertyKey? members <;> rfl

/-- What a member adds is the same before and after its places are erased. -/
structure Commutes (m : Member) : Prop where
  addMember : ∀ e seen, addMember e.unplaced seen m.unplaced =
    ((addMember e seen m).1.unplaced, (addMember e seen m).2.1, reports (addMember e seen m).2.2)
  itemElement : ∀ kind, itemElement kind m.unplaced =
    ((itemElement kind m).1.map Element.unplaced, reports (itemElement kind m).2)

theorem addMembers_unplaced {ms : List Member} (hms : ∀ m ∈ ms, Commutes m) (e : Element)
    (seen : List String) :
    addMembers e.unplaced seen (Member.allUnplaced ms) =
      ((addMembers e seen ms).1.unplaced, reports (addMembers e seen ms).2) := by
  induction ms generalizing e seen with
  | nil => rfl
  | cons m ms ih =>
      obtain ⟨hm, hms⟩ := List.forall_mem_cons.mp hms
      rw [Member.allUnplaced, addMembers, addMembers, hm.addMember]
      dsimp only
      rw [ih hms, reports_append]

theorem itemElements_unplaced {ms : List Member} (hms : ∀ m ∈ ms, Commutes m)
    (kind : ElementKind) :
    itemElements kind (Member.allUnplaced ms) =
      ((itemElements kind ms).1.map Element.unplaced, reports (itemElements kind ms).2) := by
  induction ms with
  | nil => rfl
  | cons m ms ih =>
      obtain ⟨hm, hms⟩ := List.forall_mem_cons.mp hms
      rw [Member.allUnplaced, itemElements, itemElements, hm.itemElement]
      dsimp only
      rw [ih hms, reports_append, List.map_append]

theorem unplaced_addContainment (e : Element) (key : String) (elements : List Element) :
    Element.unplaced { e with children := e.children ++ [⟨key, elements⟩] } =
      { e.unplaced with children := e.unplaced.children ++ [⟨key, elements.map .unplaced⟩] } := by
  simp only [Element.unplaced_eq, List.map_append, List.map_cons, List.map_nil,
    Element.unplacedOne, Element.unplacedList_eq_map]

/-- The elements under a feature that holds a single one. -/
theorem singleElement_unplaced {members : List Member} (hmembers : ∀ m ∈ members, Commutes m)
    (kind : ElementKind) (range : TextRange) :
    addMembers { kind := kind, range := .erased } [] (Member.allUnplaced members) =
      ((addMembers { kind := kind, range := range } [] members).1.unplaced,
        reports (addMembers { kind := kind, range := range } [] members).2) :=
  addMembers_unplaced hmembers { kind := kind, range := range } []

theorem Nests.unplaced {spec : ContainmentSpec} {range : TextRange} {entry : Entry}
    {made : List Element × List SyntaxError} (h : Nests spec range entry made)
    (hmembers : ∀ m ∈ entry.members, Commutes m) :
    Nests spec .erased entry.unplaced (made.1.map Element.unplaced, reports made.2) := by
  cases h with
  | noList many valued =>
      exact .noList many (by rw [listReports_unplaced, valued, Option.map_none])
  | @list first many listed =>
      have hnests : Nests spec .erased entry.unplaced _ :=
        .list many (by rw [listReports_unplaced, listed, Option.map_some])
      rw [show entry.unplaced.members = Member.allUnplaced entry.members from rfl,
        itemElements_unplaced hmembers, ← reports_append] at hnests
      exact hnests
  | @block place single written =>
      have hnests : Nests spec .erased entry.unplaced _ :=
        .block single (by rw [Entry.unplaced, written, Option.map_some])
      rw [show entry.unplaced.members = Member.allUnplaced entry.members from rfl,
        singleElement_unplaced hmembers spec.kind range] at hnests
      exact hnests
  | noBlock single missing =>
      exact .noBlock single (by rw [Entry.unplaced, missing, Option.map_none])

/-- What a property does to an element it does to the element without its places. -/
theorem Adds.unplaced {e : Element} {seen : List String} {range : TextRange} {entry : Entry}
    {added : Element × List String × List SyntaxError} (h : Adds e seen range entry added)
    (hmembers : ∀ m ∈ entry.members, Commutes m) :
    Adds e.unplaced seen .erased entry.unplaced
      (added.1.unplaced, added.2.1, reports added.2.2) := by
  have hkind := (Element.kind_unplaced e).symm
  cases h with
  | again used => exact .again used
  | identifies new declares =>
      have hadds : Adds e.unplaced seen .erased entry.unplaced _ :=
        .identifies new (hkind ▸ declares)
      rw [declareId_unplaced] at hadds
      exact hadds
  | contains new other known nests =>
      have hadds : Adds e.unplaced seen .erased entry.unplaced _ :=
        .contains new (hkind ▸ other) (hkind ▸ known) (nests.unplaced hmembers)
      dsimp only
      rw [unplaced_addContainment]
      exact hadds
  | refers new other nothingNested known =>
      have hadds : Adds e.unplaced seen .erased entry.unplaced _ :=
        .refers new (hkind ▸ other) (hkind ▸ nothingNested) (hkind ▸ known)
      rw [addReferences_unplaced] at hadds
      exact hadds
  | plain new other nothingNested noReference =>
      have hadds : Adds e.unplaced seen .erased entry.unplaced _ :=
        .plain new (hkind ▸ other) (hkind ▸ nothingNested) (hkind ▸ noReference)
      rw [addPlain_unplaced] at hadds
      exact hadds

theorem commutes (m : Member) : Commutes m := by
  induction m using Member.nested_induction with
  | item range value members ih =>
      refine ⟨fun e seen => rfl, fun kind => ?_⟩
      cases value with
      | some value => rfl
      | none =>
          rw [Member.unplaced, Option.map_none, itemElement, itemElement,
            singleElement_unplaced ih kind range]
          rfl
  | property range key keyRange value block members ih =>
      refine ⟨fun e seen => ?_, fun kind => rfl⟩
      obtain ⟨added, hadded, hadds⟩ := exists_adds e seen range key keyRange value block members
      rw [hadded]
      exact (hadds.unplaced ih).addMember_eq

/-- To make the root element of an outline is the same before and after the places are
erased. -/
theorem root_unplaced (ms : List Member) :
    root (Member.allUnplaced ms) =
      ((root ms).1.map Element.unplaced, reports (root ms).2) := by
  induction ms with
  | nil => rfl
  | cons m ms ih =>
      cases m with
      | item range value members => exact ih
      | property range key keyRange value block members =>
          rw [Member.allUnplaced, Member.unplaced, root, root]
          cases ElementKind.ofRootKey? key with
          | none => rfl
          | some kind =>
              cases block with
              | none => rfl
              | some block =>
                  dsimp only [Option.map_some]
                  rw [singleElement_unplaced (fun m _ => commutes m) kind range]

theorem map_message_reports (errors : List SyntaxError) :
    (reports errors).map SyntaxError.message = errors.map SyntaxError.message := by
  rw [reports, List.map_map]
  rfl

/-- Trees with the same core have the same root element, up to the places, and the same is
reported of them. -/
theorem root_of_core (kind : SyntaxKind) {ts us : List Tree}
    (h : Tree.allCore ts = Tree.allCore us) :
    (root (Outline.ofTree (.node kind ts))).1.map Element.unplaced =
        (root (Outline.ofTree (.node kind us))).1.map Element.unplaced ∧
      (root (Outline.ofTree (.node kind ts))).2.map SyntaxError.message =
        (root (Outline.ofTree (.node kind us))).2.map SyntaxError.message := by
  have hts := root_unplaced (Outline.ofTree (.node kind ts))
  rw [Outline.unplaced_ofTree h, root_unplaced] at hts
  obtain ⟨hroot, hreports⟩ := Prod.mk.inj hts
  refine ⟨hroot.symm, ?_⟩
  rw [← map_message_reports, ← hreports, map_message_reports]

end Lowering
end ModelWorkspace
