import ModelWorkspace.Proofs.Index.Containment
import ModelWorkspace.Proofs.Link.Candidates

/-!
# What labels mean

The label of a candidate is written to be read as a reference.  Two things come in between.

* A label with a dot is read at a qualified property as `object.member` if its head is the
  identifier of an object, and of several such objects the first one counts
  (`LeadsAstray`).
* An element that has the name of its package has the same global identifier, so an element
  of this name in a package that is seen before hides it (`IsHidden`).

Apart from these every label means its element, and with these none does
(`resolveSite_label_iff`).  What carries the proof is that the number of dots in a name is
the level of its kind: a name with a package or a root in front of it is never mistaken for
a name of the same kind without.
-/

namespace ModelWorkspace

/-- A value is what is found first if its place is before all others where something is
found. -/
theorem findSome?_eq_some_iff_idxOf {α β : Type} [BEq α] [LawfulBEq α] {f : α → Option β}
    {xs : List α} {a : α} {b : β} (ha : a ∈ xs) (hb : f a = some b)
    (honly : ∀ x ∈ xs, f x = some b → x = a) :
    xs.findSome? f = some b ↔ ∀ x ∈ xs, (f x).isSome = true → ¬ xs.idxOf x < xs.idxOf a := by
  constructor
  · intro hfound x _ hsome hlt
    obtain ⟨before, other, after, rfl, hother, hnone⟩ := List.findSome?_eq_some_iff.mp hfound
    obtain rfl := honly other (List.mem_append_right _ List.mem_cons_self) hother
    have hnot : other ∉ before := fun hmem => by
      rw [hnone other hmem] at hb
      cases hb
    rw [List.idxOf_append_of_notMem hnot, List.idxOf_cons_self, Nat.add_zero] at hlt
    have hmem : x ∈ before := by
      by_contra hx
      rw [List.idxOf_append_of_notMem hx] at hlt
      omega
    rw [hnone x hmem] at hsome
    cases hsome
  · intro hall
    obtain ⟨before, after, rfl, hnot⟩ := List.eq_append_cons_of_mem ha
    refine List.findSome?_eq_some_iff.mpr ⟨before, a, after, rfl, hb, fun x hx => ?_⟩
    by_contra hsome
    refine hall x (List.mem_append_left _ hx) (Option.isSome_iff_ne_none.mpr hsome) ?_
    rw [List.idxOf_append_of_mem hx, List.idxOf_append_of_notMem hnot, List.idxOf_cons_self,
      Nat.add_zero]
    exact List.idxOf_lt_length_of_mem hx

/-! ## Texts with dots -/

namespace Name

theorem dropWhile_append_cons {c : Char} {front : List Char} (h : c ∉ front)
    (back : List Char) : (front ++ c :: back).dropWhile (· ≠ c) = c :: back := by
  have hfront := List.takeWhile_eq_self_iff.mp (takeWhile_of_notMem h)
  rw [List.dropWhile_append_of_pos hfront]
  simp

theorem toList_nested (container own : String) :
    (nested container own).toList = container.toList ++ '.' :: own.toList := by
  unfold nested
  rw [String.toList_append, String.toList_append, List.append_assoc]
  rfl

end Name

theorem splitAtDot?_nested {head : String} (h : '.' ∉ head.toList) (member : String) :
    splitAtDot? (Name.nested head member) = some (head, member) := by
  unfold splitAtDot?
  dsimp only
  rw [Name.toList_nested, Name.dropWhile_append_cons h, Name.takeWhile_append_cons h]
  dsimp only
  rw [String.ofList_toList, String.ofList_toList]

theorem splitAtDot?_eq_none {text : String} (h : '.' ∉ text.toList) :
    splitAtDot? text = none := by
  have hnone : text.toList.dropWhile (· ≠ '.') = [] := by
    refine List.dropWhile_eq_nil_iff.mpr fun c hc => decide_eq_true ?_
    rintro rfl
    exact h hc
  unfold splitAtDot?
  dsimp only
  rw [hnone]

theorem eq_nested_of_afterName? {root text rest : String} (h : afterName? root text = some rest) :
    text = Name.nested root rest := by
  unfold afterName? at h
  dsimp only at h
  split at h
  · rename_i hbegins
    cases h
    obtain ⟨back, hback⟩ := List.isPrefixOf_iff_prefix.mp hbegins
    rw [← String.toList_inj, Name.toList_nested, String.toList_ofList, ← hback,
      List.drop_left, List.append_assoc]
    rfl
  · cases h

/-! ## Levels of what properties name -/

namespace ElementKind

variable {kind : ElementKind} {property : String} {spec : ReferenceSpec}

theorem level_target_of_qualifier (h : kind.reference? property = some spec)
    (hqualifier : spec.qualifier.isSome = true) : spec.target.level = 1 := by
  have hall : ∀ spec ∈ kind.references, spec.qualifier.isSome = true →
      spec.target.level = 1 := by
    cases kind <;> decide
  exact hall spec (List.mem_of_find?_eq_some h) hqualifier

/-- Members are no roots. -/
theorem level_ne_zero {other : ElementKind} (hlevel : other.level = 1) (hkind : kind = other) :
    kind.level ≠ 0 := by
  rw [hkind, hlevel]
  exact Nat.one_ne_zero

theorem level_target_of_anchor (h : kind.reference? property = some spec)
    (hanchor : spec.anchor.isSome = true) :
    spec.target.level = 1 ∧ spec.qualifier = none := by
  have hall : ∀ spec ∈ kind.references, spec.anchor.isSome = true →
      spec.target.level = 1 ∧ spec.qualifier = none := by
    cases kind <;> decide
  exact hall spec (List.mem_of_find?_eq_some h) hanchor

end ElementKind

namespace Linker

open Index

/-- References made inside a package, in an index whose names tell what contains what. -/
structure Reading (linker : Linker) (origin : Origin) (package : Package) : Prop
    extends Inside linker origin package where
  own : ∀ e ∈ linker.index.entries, e.location = origin.location → e.package = package.id
  layered : Layered linker.index.entries

variable {linker : Linker} {origin : Origin} {package : Package} {kind : ElementKind}
  {e entity other : IndexEntry} {name : String}

/-- What is found in a package is named so there. -/
theorem Inside.inPackage?_eq_some_iff (h : linker.Inside origin package) {id : String}
    (hid : id ∈ linker.namespacesFrom package) :
    linker.inPackage? id name kind = some e ↔
      e ∈ linker.index.entries ∧ e.package = id ∧ e.localName = name ∧ e.kind = kind := by
  have hpackage := h.namespaces id hid
  unfold inPackage?
  rw [Option.filter_eq_some_iff, h.confined.get?_globalId_eq_some_iff hid hpackage,
    mem_visible_iff, beq_iff_eq]
  constructor
  · rintro ⟨⟨⟨hmem, -⟩, hglobal⟩, hkind⟩
    rw [h.confined.coherent.globalId_eq e hmem] at hglobal
    have hsame := Name.package_eq_of_globalId_eq (h.confined.isPackageId e hmem) hpackage hglobal
    rw [hsame] at hglobal
    exact ⟨hmem, hsame, Name.globalId_injective id hglobal, hkind⟩
  · rintro ⟨hmem, rfl, rfl, hkind⟩
    exact ⟨⟨⟨hmem, hid⟩, h.confined.coherent.globalId_eq e hmem⟩, hkind⟩

namespace Reading

theorem coherent (h : linker.Reading origin package) : linker.index.Coherent :=
  h.confined.coherent

/-- Elements of one kind have as many dots in their names. -/
theorem count_dot_eq (h : linker.Reading origin package) (he : e ∈ linker.index.entries)
    (hother : other ∈ linker.index.entries) (hkind : other.kind = e.kind) :
    other.localName.toList.count '.' = e.localName.toList.count '.' := by
  rw [h.layered.count_dot other hother, h.layered.count_dot e he, hkind]

/-- An element is not named like a member of another one of its kind. -/
theorem ne_nested (h : linker.Reading origin package) (he : e ∈ linker.index.entries)
    (hother : other ∈ linker.index.entries) (hkind : other.kind = e.kind) (container : String) :
    other.localName ≠ Name.nested container e.localName := by
  intro hname
  have hcount := h.count_dot_eq he hother hkind
  rw [hname, Name.count_dot_nested] at hcount
  omega

theorem dot_notMem_localName (h : linker.Reading origin package)
    (he : e ∈ linker.index.entries) (hlevel : e.kind.level = 0) : '.' ∉ e.localName.toList :=
  List.count_eq_zero.mp ((h.layered.count_dot e he).trans hlevel)

/-! ## The rules for names -/

theorem sameUnit?_eq_some_iff (h : linker.Reading origin package) :
    linker.sameUnit? origin name kind = some e ↔
      (e ∈ linker.index.entries ∧ e.location = origin.location ∧ e.kind = kind) ∧
        (e.localName = name ∨
          ∃ root, origin.rootName = some root ∧ e.localName = Name.nested root name) := by
  have hfound : ∀ {name e}, (linker.index.findLocal origin.location name).filter
      (·.kind == kind) = some e ↔
        (e ∈ linker.index.entries ∧ e.location = origin.location ∧ e.kind = kind) ∧
          e.localName = name := by
    intro name e
    rw [Option.filter_eq_some_iff, h.coherent.findLocal_eq_some_iff, beq_iff_eq]
    tauto
  unfold sameUnit?
  dsimp only
  rw [Option.orElse_eq_or, Option.or_eq_some_iff, hfound]
  constructor
  · rintro (⟨hplace, hname⟩ | ⟨-, hnested⟩)
    · exact ⟨hplace, Or.inl hname⟩
    · obtain ⟨root, hroot, hnested⟩ := Option.bind_eq_some_iff.mp hnested
      obtain ⟨hplace, hname⟩ := hfound.mp hnested
      exact ⟨hplace, Or.inr ⟨root, hroot, hname⟩⟩
  · rintro ⟨hplace, hname | ⟨root, hroot, hname⟩⟩
    · exact Or.inl ⟨hplace, hname⟩
    · refine Or.inr ⟨?_, Option.bind_eq_some_iff.mpr ⟨root, hroot, hfound.mpr ⟨hplace, hname⟩⟩⟩
      rw [Option.eq_none_iff_forall_ne_some]
      intro other hother
      obtain ⟨⟨hmem, -, hkind⟩, rfl⟩ := hfound.mp hother
      exact h.ne_nested hmem hplace.1 (hplace.2.2.trans hkind.symm) root hname

theorem resolveMember_eq_some_iff (h : linker.Reading origin package) :
    linker.resolveMember entity name kind = some e ↔
      e ∈ linker.index.entries ∧ e.location = entity.location ∧
        e.localName = Name.nested entity.localName name ∧ e.kind = kind := by
  unfold resolveMember
  rw [Option.filter_eq_some_iff, h.coherent.findLocal_eq_some_iff, beq_iff_eq]
  tauto

/-- A member of an element is found by its own name. -/
theorem resolveMember_localId (h : linker.Reading origin package)
    (hmem : e ∈ linker.index.entries) (hin : e.IsIn entity) :
    linker.resolveMember entity e.localId e.kind = some e :=
  h.resolveMember_eq_some_iff.mpr ⟨hmem, hin.location_eq, hin.localName_eq, rfl⟩

/-- What is found as a member of a root lies within it. -/
theorem isIn_of_resolveMember (h : linker.Reading origin package)
    (hentity : entity ∈ linker.index.entries) (hroot : entity.kind.level = 0)
    (hlevel : kind.level = 1) (he : linker.resolveMember entity name kind = some e) :
    e.IsIn entity := by
  obtain ⟨hmem, hl, hname, hkind⟩ := h.resolveMember_eq_some_iff.mp he
  obtain ⟨owner, howner, hin⟩ :=
    (h.layered.owner e hmem).resolve_left (ElementKind.level_ne_zero hlevel hkind)
  have hdot : '.' ∉ owner.localName.toList := by
    have hcount := h.layered.count_dot e hmem
    rw [hin.localName_eq, Name.count_dot_nested, hkind, hlevel] at hcount
    exact List.count_eq_zero.mp (by omega)
  -- names without dots are what stands before the first dot
  have hsame : owner.localName = entity.localName := by
    have hwithin : Name.IsWithin owner.localName e.localName :=
      Or.inr ⟨e.localId, hin.localName_eq⟩
    have hwithin' : Name.IsWithin entity.localName e.localName := Or.inr ⟨name, hname⟩
    rw [← hwithin.firstSegment_eq hdot,
      hwithin'.firstSegment_eq (h.dot_notMem_localName hentity hroot)]
  rwa [h.coherent.eq_of_localName_eq howner hentity (hin.location_eq.symm.trans hl) hsame] at hin

/-! ## Global identifiers and names of packages -/

/-- A global identifier that is not that of a package means its element. -/
theorem resolveName_globalId (h : linker.Reading origin package)
    (he : linker.IsTarget package kind e) (hne : e.globalId ≠ e.package) :
    linker.resolveName origin e.globalId kind = some e := by
  obtain ⟨hmem, hpackage, hkind⟩ := isTarget_iff.mp he
  have hid := h.coherent.globalId_eq e hmem
  have hlonger : e.globalId = Name.nested e.package e.localName := by
    unfold Name.globalId at hid
    rw [if_neg (h.confined.isPackageId e hmem).ne_empty] at hid
    split at hid
    · exact absurd hid hne
    · exact hid
  -- no element of this kind is named like this in its unit
  have hother : ∀ {other}, other ∈ linker.index.entries → other.kind = kind →
      other.localName ≠ e.globalId := by
    intro other hother hsame hname
    exact h.ne_nested hmem hother (hsame.trans hkind.symm) e.package (hname.trans hlonger)
  rw [h.resolveName_eq]
  have hunit : linker.sameUnit? origin e.globalId kind = none := by
    rw [Option.eq_none_iff_forall_ne_some]
    intro other hfound
    obtain ⟨⟨hmem', -, hsame⟩, hname | ⟨root, -, hname⟩⟩ := h.sameUnit?_eq_some_iff.mp hfound
    · exact hother hmem' hsame hname
    · rw [hlonger, ← Name.nested_assoc] at hname
      exact h.ne_nested hmem hmem' (hsame.trans hkind.symm) _ hname
  have hnamed : (linker.namespacesFrom package).findSome?
      (fun id => linker.inPackage? id e.globalId kind) = none := by
    rw [List.findSome?_eq_none_iff]
    intro id hmem'
    rw [Option.eq_none_iff_forall_ne_some]
    intro other hfound
    obtain ⟨hother', -, hname, hsame⟩ := (h.inPackage?_eq_some_iff hmem').mp hfound
    exact hother hother' hsame hname
  rw [hunit, hnamed, Option.none_or, Option.none_or]
  unfold byGlobalId?
  rw [Option.filter_eq_some_iff, h.coherent.get?_eq_some_iff, Bool.and_eq_true, beq_iff_eq,
    List.contains_iff_mem]
  exact ⟨⟨hmem, rfl⟩, hkind, hpackage⟩

end Reading

/-- An element that has the name of its package is hidden by an element of the same name and
kind in a package that is seen before. -/
def IsHidden (linker : Linker) (package : Package) (e : IndexEntry) : Prop :=
  e.globalId = e.package ∧ ∃ other ∈ linker.index.entries, other.kind = e.kind ∧
    other.localName = e.localName ∧
      (linker.namespacesFrom package).idxOf other.package <
        (linker.namespacesFrom package).idxOf e.package

namespace Reading

/-- A name means the element that has it in the first package with such an element. -/
theorem resolveName_localName_iff (h : linker.Reading origin package)
    (he : linker.IsTarget package kind e) :
    linker.resolveName origin e.localName kind = some e ↔
      ∀ other ∈ linker.index.entries, other.kind = kind → other.localName = e.localName →
        ¬ (linker.namespacesFrom package).idxOf other.package <
          (linker.namespacesFrom package).idxOf e.package := by
  obtain ⟨hmem, hpackage, hkind⟩ := isTarget_iff.mp he
  have hself : linker.inPackage? e.package e.localName kind = some e :=
    (h.inPackage?_eq_some_iff hpackage).mpr ⟨hmem, rfl, rfl, hkind⟩
  have hsome : ((linker.namespacesFrom package).findSome?
      fun id => linker.inPackage? id e.localName kind).isSome = true :=
    List.findSome?_isSome_iff.mpr ⟨e.package, hpackage, Option.isSome_of_eq_some hself⟩
  obtain ⟨first, hfirst⟩ := Option.isSome_iff_exists.mp hsome
  -- what the unit itself has of this name is found in its package, too
  have hall : linker.resolveName origin e.localName kind =
      (linker.namespacesFrom package).findSome?
        fun id => linker.inPackage? id e.localName kind := by
    rw [h.resolveName_eq, hfirst, Option.some_or]
    cases hunit : linker.sameUnit? origin e.localName kind with
    | none => rfl
    | some other =>
        obtain ⟨⟨hother, hl, hsame⟩, hname | ⟨root, -, hname⟩⟩ := h.sameUnit?_eq_some_iff.mp hunit
        · have hhead : linker.inPackage? package.id e.localName kind = some other :=
            (h.inPackage?_eq_some_iff List.mem_cons_self).mpr
              ⟨hother, h.own other hother hl, hname, hsame⟩
          rw [← hfirst, Linker.namespacesFrom, List.findSome?_cons, hhead]
          rfl
        · exact absurd hname (h.ne_nested hmem hother (hsame.trans hkind.symm) root)
  have honly : ∀ id ∈ linker.namespacesFrom package,
      linker.inPackage? id e.localName kind = some e → id = e.package :=
    fun id hid hfound => ((h.inPackage?_eq_some_iff hid).mp hfound).2.1.symm
  rw [hall, findSome?_eq_some_iff_idxOf hpackage hself honly]
  constructor
  · intro hnearer other hother hsame hname hlt
    have hid : other.package ∈ linker.namespacesFrom package :=
      List.idxOf_lt_length_iff.mp (hlt.trans (List.idxOf_lt_length_of_mem hpackage))
    have hfound := (h.inPackage?_eq_some_iff hid).mpr ⟨hother, rfl, hname, hsame⟩
    exact hnearer other.package hid (Option.isSome_of_eq_some hfound) hlt
  · intro hnearer id hid hsome
    obtain ⟨other, hother⟩ := Option.isSome_iff_exists.mp hsome
    obtain ⟨hmem', rfl, hname, hsame⟩ := (h.inPackage?_eq_some_iff hid).mp hother
    exact hnearer other hmem' hsame hname

/-! ## Labels of units and packages -/

/-- The label of an element of the same unit means the element. -/
theorem resolveName_unitCandidate (h : linker.Reading origin package) {c : Candidate}
    (hc : c ∈ linker.unitCandidates origin kind) :
    linker.resolveName origin c.label kind = some c.entry := by
  obtain ⟨hplace, hlabel⟩ := mem_unitCandidates h.coherent hc
  have hunit : linker.sameUnit? origin c.label kind = some c.entry := by
    rw [h.sameUnit?_eq_some_iff, hlabel]
    refine ⟨hplace, ?_⟩
    cases hroot : origin.rootName with
    | none => exact Or.inl rfl
    | some root =>
        rw [Option.bind_some]
        cases hshort : afterName? root c.entry.localName with
        | none => exact Or.inl rfl
        | some rest => exact Or.inr ⟨root, rfl, eq_nested_of_afterName? hshort⟩
  rw [h.resolveName_eq, hunit, Option.some_or]

/-- An element whose global identifier is that of its package has the name of the package. -/
theorem localName_eq_package (h : linker.Reading origin package)
    (hmem : e ∈ linker.index.entries) (hbare : e.globalId = e.package) :
    e.localName = e.package := by
  have hpackage := h.confined.isPackageId e hmem
  refine Name.globalId_injective e.package ?_
  rw [← h.coherent.globalId_eq e hmem, hbare]
  unfold Name.globalId
  rw [if_neg hpackage.ne_empty, if_pos rfl]

/-- Only roots are hidden. -/
theorem not_isHidden_of_level (h : linker.Reading origin package)
    (hmem : e ∈ linker.index.entries) (hlevel : e.kind.level ≠ 0) :
    ¬ linker.IsHidden package e := by
  rintro ⟨hbare, -⟩
  have hcount := h.layered.count_dot e hmem
  rw [h.localName_eq_package hmem hbare,
    List.count_eq_zero.mpr (h.confined.isPackageId e hmem).dot_notMem] at hcount
  exact hlevel hcount.symm

/-- Nothing hides an element of the package itself. -/
theorem not_isHidden_of_own (h : linker.Reading origin package)
    (hmem : e ∈ linker.index.entries) (hl : e.location = origin.location) :
    ¬ linker.IsHidden package e := by
  rintro ⟨-, other, -, -, -, hlt⟩
  rw [h.own e hmem hl, Linker.namespacesFrom, List.idxOf_cons_self] at hlt
  exact absurd hlt (Nat.not_lt_zero _)

/-- The label of an element of a package means the element, unless another one hides it. -/
theorem resolveName_packageLabel_iff (h : linker.Reading origin package)
    (he : linker.IsTarget package kind e) :
    linker.resolveName origin (linker.packageLabel origin e) kind = some e ↔
      ¬ linker.IsHidden package e := by
  obtain ⟨hmem, hpackage, rfl⟩ := isTarget_iff.mp he
  have hname : linker.resolveName origin e.localName e.kind = some e →
      ¬ linker.IsHidden package e := by
    rintro hfound ⟨-, other, hother, hkind, hname, hlt⟩
    exact (h.resolveName_localName_iff he).mp hfound other hother hkind hname hlt
  -- the label is the name if this means the element, and the global identifier otherwise
  by_cases hfound : linker.resolveName origin e.localName e.kind = some e
  · have hlabel : linker.packageLabel origin e = e.localName := by
      unfold packageLabel
      rw [hfound]
      exact if_pos rfl
    rw [hlabel]
    exact iff_of_true hfound (hname hfound)
  · have hlabel : linker.packageLabel origin e = e.globalId := by
      unfold packageLabel
      split
      · rename_i other hother
        refine if_neg fun hid => hfound ?_
        have htarget := (isTarget_iff.mp (h.isTarget_resolveName hother)).1
        rw [hother, h.coherent.entry_unique htarget hmem hid]
      · rfl
    rw [hlabel]
    by_cases hbare : e.globalId = e.package
    · rw [hbare, ← h.localName_eq_package hmem hbare]
      refine iff_of_false hfound fun hvisible => hfound ((h.resolveName_localName_iff he).mpr ?_)
      exact fun other hother hkind hname hlt =>
        hvisible ⟨hbare, other, hother, hkind, hname, hlt⟩
    · exact iff_of_true (h.resolveName_globalId he hbare) fun hhidden => hbare hhidden.1

end Reading

/-! ## Labels that are read at qualified properties -/

/-- The label of a candidate starts with the identifier of an object, and the first object
of this identifier refers to another entity than the one that contains the element. -/
def LeadsAstray (linker : Linker) (origin : Origin) (root : Element) (spec : ReferenceSpec)
    (c : Candidate) : Prop :=
  ∃ feature head member objects object, spec.qualifier = some feature ∧
    splitAtDot? c.label = some (head, member) ∧ root.containment? feature = some objects ∧
    objects.elements.find? (·.id == some head) = some object ∧
    (linker.objectEntity? origin object).map (·.globalId) ≠ c.entry.container

/-- It is decided by the object that a label starts with. -/
theorem leadsAstray_iff {root : Element} {spec : ReferenceSpec} {c : Candidate}
    {feature head member : String} {objects : Containment Element} {object : Element}
    (hqualifier : spec.qualifier = some feature)
    (hsplit : splitAtDot? c.label = some (head, member))
    (hobjects : root.containment? feature = some objects)
    (hobject : objects.elements.find? (·.id == some head) = some object) :
    linker.LeadsAstray origin root spec c ↔
      (linker.objectEntity? origin object).map (·.globalId) ≠ c.entry.container := by
  constructor
  · rintro ⟨feature', head', member', objects', object', hqualifier', hsplit', hobjects',
      hobject', hcontainer⟩
    cases hqualifier.symm.trans hqualifier'
    cases hsplit.symm.trans hsplit'
    cases hobjects.symm.trans hobjects'
    cases hobject.symm.trans hobject'
    exact hcontainer
  · exact fun hcontainer => ⟨feature, head, member, objects, object, hqualifier, hsplit,
      hobjects, hobject, hcontainer⟩

theorem resolveQualified?_eq_some_iff {root : Element} {feature text : String}
    {found : Option IndexEntry} :
    linker.resolveQualified? origin root feature text kind = some found ↔
      ∃ head member objects object, splitAtDot? text = some (head, member) ∧
        root.containment? feature = some objects ∧
        objects.elements.find? (·.id == some head) = some object ∧
        (linker.objectEntity? origin object).bind
          (fun entity => linker.resolveMember entity member kind) = found := by
  unfold resolveQualified?
  simp only [Option.bind_eq_bind, Option.pure_def, Option.bind_eq_some_iff, Option.some.injEq]
  constructor
  · rintro ⟨⟨head, member⟩, hsplit, objects, hobjects, object, hobject, hfound⟩
    exact ⟨head, member, objects, object, hsplit, hobjects, hobject, hfound⟩
  · rintro ⟨head, member, objects, object, hsplit, hobjects, hobject, hfound⟩
    exact ⟨(head, member), hsplit, objects, hobjects, object, hobject, hfound⟩

namespace Reading

/-- Objects refer to entities. -/
theorem of_objectEntity? (h : linker.Reading origin package) {object : Element}
    (hentity : linker.objectEntity? origin object = some entity) :
    entity ∈ linker.index.entries ∧ entity.kind.level = 0 := by
  obtain ⟨site, hsite, hfound⟩ := Option.bind_eq_some_iff.mp hentity
  obtain ⟨hmem, -, hkind⟩ := isTarget_iff.mp (h.isTarget_resolveName hfound)
  have htarget := List.find?_some hsite
  refine ⟨hmem, ?_⟩
  rw [hkind, beq_iff_eq.mp htarget]
  rfl

/-- A member that is found through an object lies within the entity of the object. -/
theorem container_of_object (h : linker.Reading origin package) {object : Element}
    {member : String} (hlevel : kind.level = 1)
    (hfound : (linker.objectEntity? origin object).bind
      (fun entity => linker.resolveMember entity member kind) = some e) :
    (linker.objectEntity? origin object).map (·.globalId) = e.container := by
  obtain ⟨entity, hentity, hmember⟩ := Option.bind_eq_some_iff.mp hfound
  obtain ⟨hmem, hroot⟩ := h.of_objectEntity? hentity
  rw [hentity, (h.isIn_of_resolveMember hmem hroot hlevel hmember).container_eq]
  rfl

variable {root : Element} {spec : ReferenceSpec} {c : Candidate}

/-- If the head of a label is an object of the entity that contains the element, the element
is offered as a member of an object. -/
theorem exists_mem_objectCandidates (h : linker.Reading origin package)
    (hlevel : spec.target.level = 1) (hmem : e ∈ linker.index.entries)
    (hkind : e.kind = spec.target) {feature head : String} {objects : Containment Element}
    {object : Element} (hqualifier : spec.qualifier = some feature)
    (hobjects : root.containment? feature = some objects)
    (hobject : objects.elements.find? (·.id == some head) = some object)
    (hcontainer : (linker.objectEntity? origin object).map (·.globalId) = e.container) :
    ∃ other ∈ linker.objectCandidates origin root spec, other.entry = e := by
  obtain ⟨owner, howner, hin⟩ :=
    (h.layered.owner e hmem).resolve_left (ElementKind.level_ne_zero hlevel hkind)
  rw [hin.container_eq] at hcontainer
  obtain ⟨entity, hentity, hid⟩ := Option.map_eq_some_iff.mp hcontainer
  obtain rfl := h.coherent.entry_unique (h.of_objectEntity? hentity).1 howner hid
  have hhead := List.find?_some hobject
  have hmember : e ∈ (linker.index.membersOf entity.globalId).filter (·.kind == spec.target) := by
    rw [List.mem_filter, h.coherent.membersOf_eq, List.mem_filter]
    exact ⟨⟨hmem, decide_eq_true hin.container_eq⟩, beq_iff_eq.mpr hkind⟩
  refine ⟨⟨Name.nested head e.localId, e, .near⟩, ?_, rfl⟩
  unfold objectCandidates qualifiedCandidates
  rw [hqualifier]
  dsimp only
  rw [hobjects]
  refine List.mem_flatMap.mpr ⟨object, List.mem_of_find?_eq_some hobject, ?_⟩
  rw [beq_iff_eq.mp hhead, hentity]
  exact List.mem_map.mpr ⟨e, hmember, rfl⟩

/-- The label of a member of an object is read as one, and means the member unless it leads
astray. -/
theorem exists_resolveQualified?_label (h : linker.Reading origin package)
    (hroot : root.IsNameable) (hlevel : spec.target.level = 1)
    (hc : c ∈ linker.objectCandidates origin root spec) :
    ∃ found, (spec.qualifier.bind fun feature =>
        linker.resolveQualified? origin root feature c.label spec.target) = some found ∧
      (found = some c.entry ↔ ¬ linker.LeadsAstray origin root spec c) := by
  unfold objectCandidates at hc
  split at hc
  · rename_i feature hqualifier
    obtain ⟨objects, hobjects, object, hobject, id, entity, hid, hentity, hc⟩ :=
      mem_qualifiedCandidates hc
    obtain ⟨member, hmember, rfl⟩ := List.mem_map.mp hc
    obtain ⟨hmember, hkind⟩ := List.mem_filter.mp hmember
    have hkind : member.kind = spec.target := beq_iff_eq.mp hkind
    obtain ⟨hmem, hin⟩ := h.coherent.mem_membersOf h.layered (h.of_objectEntity? hentity).1
      hmember (ElementKind.level_ne_zero hlevel hkind)
    have hdot : '.' ∉ id.toList := by
      obtain ⟨-, -, hids, -⟩ := hroot
      exact (hids objects (List.mem_of_find?_eq_some hobjects) object hobject id hid).1
    have hsplit := splitAtDot?_nested hdot member.localId
    -- several objects may have this identifier, and the first one counts
    obtain ⟨first, hfirst⟩ : ∃ first, objects.elements.find? (·.id == some id) = some first := by
      rw [← Option.isSome_iff_exists, List.find?_isSome]
      exact ⟨object, hobject, beq_iff_eq.mpr hid⟩
    refine ⟨(linker.objectEntity? origin first).bind fun entity =>
      linker.resolveMember entity member.localId spec.target, ?_, ?_⟩
    · rw [hqualifier, Option.bind_some, resolveQualified?_eq_some_iff]
      exact ⟨id, member.localId, objects, first, hsplit, hobjects, hfirst, rfl⟩
    · let c : Candidate := ⟨Name.nested id member.localId, member, .near⟩
      rw [leadsAstray_iff (c := c) hqualifier hsplit hobjects hfirst, not_not]
      refine ⟨fun hfound => h.container_of_object hlevel hfound, fun hcontainer => ?_⟩
      have hcontainer := hcontainer.trans hin.container_eq
      obtain ⟨found, hfound, hsame⟩ := Option.map_eq_some_iff.mp hcontainer
      obtain rfl := h.coherent.entry_unique (h.of_objectEntity? hfound).1
        (h.of_objectEntity? hentity).1 hsame
      rw [hfound, Option.bind_some, ← hkind]
      exact h.resolveMember_localId hmem hin
  · exact absurd hc List.not_mem_nil

/-- The label of any other candidate is read as a name, unless it leads astray. -/
theorem resolveQualified?_eq_none (h : linker.Reading origin package)
    (hspec : spec.qualifier.isSome = true → spec.target.level = 1)
    (htarget : linker.IsTarget package spec.target c.entry)
    (hnew : ∀ other ∈ linker.objectCandidates origin root spec,
      other.entry.globalId ≠ c.entry.globalId)
    (hnot : ¬ linker.LeadsAstray origin root spec c) :
    (spec.qualifier.bind fun feature =>
      linker.resolveQualified? origin root feature c.label spec.target) = none := by
  obtain ⟨hmem, -, hkind⟩ := isTarget_iff.mp htarget
  rw [Option.eq_none_iff_forall_ne_some]
  intro found hfound
  obtain ⟨feature, hqualifier, hfound⟩ := Option.bind_eq_some_iff.mp hfound
  obtain ⟨head, member, objects, object, hsplit, hobjects, hobject, -⟩ :=
    resolveQualified?_eq_some_iff.mp hfound
  have hcontainer := not_not.mp
    ((leadsAstray_iff hqualifier hsplit hobjects hobject).not.mp hnot)
  obtain ⟨other, hother, hentry⟩ := h.exists_mem_objectCandidates
    (hspec (Option.isSome_of_eq_some hqualifier)) hmem hkind hqualifier hobjects hobject hcontainer
  exact hnew other hother (by rw [hentry])

/-- A label that leads astray does not mean its element. -/
theorem ne_of_leadsAstray (h : linker.Reading origin package)
    (hspec : spec.qualifier.isSome = true → spec.target.level = 1)
    (hastray : linker.LeadsAstray origin root spec c) (name : Option IndexEntry) :
    (spec.qualifier.bind fun feature =>
      linker.resolveQualified? origin root feature c.label spec.target).getD name ≠
        some c.entry := by
  obtain ⟨feature, head, member, objects, object, hqualifier, hsplit, hobjects, hobject,
    hcontainer⟩ := hastray
  have hread : linker.resolveQualified? origin root feature c.label spec.target =
      some ((linker.objectEntity? origin object).bind
        fun entity => linker.resolveMember entity member spec.target) :=
    resolveQualified?_eq_some_iff.mpr
      ⟨head, member, objects, object, hsplit, hobjects, hobject, rfl⟩
  rw [hqualifier, Option.bind_some, hread, Option.getD_some]
  intro hfound
  exact hcontainer (h.container_of_object (hspec (Option.isSome_of_eq_some hqualifier)) hfound)

variable {l : Location} {element : Element} {path : ElementPath} {property : String}

/-- **What labels mean.**  The label of a candidate for a property without an anchor means
the candidate, unless it leads astray or the candidate is hidden. -/
theorem resolveSite_label_iff (h : linker.Reading (linker.origin l) package)
    (hroot : root.IsNameable) (hwalk : root.walk path = some element)
    (hspec : element.kind.reference? property = some spec) (hanchor : spec.anchor = none)
    (hc : c ∈ linker.candidates l root path property) (links : Links) (index : Nat)
    (range : TextRange) :
    linker.resolveSite (linker.origin l) root links path element.kind
        ⟨property, index, c.label, range, spec.target⟩ = some c.entry ↔
      ¬ (linker.LeadsAstray (linker.origin l) root spec c ∨ linker.IsHidden package c.entry) := by
  have hlevel := ElementKind.level_target_of_qualifier hspec
  rw [candidates_eq hwalk hspec hanchor] at hc
  have htarget := h.isTarget_of_mem_lists (Candidate.mem_of_mem_distinct hc).1
  rw [List.append_assoc] at hc
  rw [resolveSite_eq hspec hanchor, not_or]
  rcases Candidate.mem_distinct_append hc with hobject | ⟨hrest, hnew⟩
  · -- a member of an object is no root, so it has not the name of its package
    have hsome : spec.qualifier.isSome = true := by
      unfold objectCandidates at hobject
      split at hobject
      · rename_i feature hqualifier
        exact Option.isSome_of_eq_some hqualifier
      · exact absurd hobject List.not_mem_nil
    obtain ⟨hmem, -, hkind⟩ := isTarget_iff.mp htarget
    have hvisible : ¬ linker.IsHidden package c.entry :=
      h.not_isHidden_of_level hmem (ElementKind.level_ne_zero (hlevel hsome) hkind)
    obtain ⟨found, hfound, hiff⟩ := h.exists_resolveQualified?_label hroot (hlevel hsome) hobject
    rw [hfound, Option.getD_some, hiff, and_iff_left hvisible]
  · have hname : linker.resolveName (linker.origin l) c.label spec.target = some c.entry ↔
        ¬ linker.IsHidden package c.entry := by
      rcases List.mem_append.mp hrest with hunit | hvisible
      · obtain ⟨⟨hmem, hl, -⟩, -⟩ := mem_unitCandidates h.coherent hunit
        exact iff_of_true (h.resolveName_unitCandidate hunit) (h.not_isHidden_of_own hmem hl)
      · rw [label_of_mem_visibleCandidates hvisible]
        exact h.resolveName_packageLabel_iff htarget
    by_cases hastray : linker.LeadsAstray (linker.origin l) root spec c
    · exact iff_of_false (h.ne_of_leadsAstray hlevel hastray _) fun hnot => hnot.1 hastray
    · rw [h.resolveQualified?_eq_none hlevel htarget hnew hastray, Option.getD_none, hname,
        and_iff_right hastray]

end Reading
end Linker
end ModelWorkspace
