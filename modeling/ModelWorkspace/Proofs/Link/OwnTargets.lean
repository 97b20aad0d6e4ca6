import ModelWorkspace.Proofs.Index.Renaming
import ModelWorkspace.Proofs.Link.Owners

/-!
# References to elements of the same unit

An element of the unit that makes a reference may be meant in three ways: by its name below
the root, by its name, and by its global identifier (`Spells`).  All are read where names are
read; the rules for anchors and qualifiers do not lead to the unit itself, for they look for
attributes, and the files that make such references have none
(`IsLowered.plain_of_target_mem`).

The first way does not mention the name of the root, the other two do.  So when the same tree
is indexed under another name, what is written below the root means the element at the same
path, and what is written with the name of the root does not (`spells_iff`).
-/

namespace ModelWorkspace

/-! ## Kinds in one file -/

/-- The kind of the root in a file with elements of a kind. -/
def ElementKind.rootKind : ElementKind → ElementKind
  | entityAttribute => entity
  | relationshipAttribute => relationship
  | entityNode | relationshipEdge => systemDiagram
  | sourceObject | targetObject | attributeMapping => mapping
  | kind => kind

namespace ElementKind

variable {kind : ElementKind} {spec : ReferenceSpec}

theorem rootKind_of_containment? {feature : String} {nested : ContainmentSpec}
    (h : kind.containment? feature = some nested) : nested.kind.rootKind = kind.rootKind := by
  have hall : ∀ nested ∈ kind.containments, nested.kind.rootKind = kind.rootKind := by
    cases kind <;> decide
  exact hall nested (List.mem_of_find?_eq_some h)

/-- What is read with an anchor or a qualifier stands in other files. -/
theorem plain_of_rootKind_target {property : String} (h : kind.reference? property = some spec)
    (hroot : spec.target.rootKind = kind.rootKind) :
    spec.anchor = none ∧ spec.qualifier = none := by
  have hall : ∀ spec ∈ kind.references, spec.target.rootKind = kind.rootKind →
      spec.anchor = none ∧ spec.qualifier = none := by
    cases kind <;> decide
  exact hall spec (List.mem_of_find?_eq_some h) hroot

end ElementKind

namespace Element

variable {e root : Element} {path : ElementPath} {described other : ElementPath × Element}

theorem IsTyped.rootKind_of_mem_descendantsFrom (h : e.IsTyped)
    (hmem : described ∈ descendantsFrom path e) :
    described.2.kind.rootKind = e.kind.rootKind := by
  let P := fun other : Element => other.IsTyped ∧ other.kind.rootKind = e.kind.rootKind
  have hdown : ∀ parent, P parent → ∀ c ∈ parent.children, ∀ child ∈ c.elements, P child := by
    rintro parent ⟨⟨-, hkinds, hnested⟩, hsame⟩ c hc child hchild
    obtain ⟨spec, hspec, hkind⟩ := hkinds c hc child hchild
    refine ⟨hnested c hc child hchild, ?_⟩
    rw [hkind, ElementKind.rootKind_of_containment? hspec, hsame]
  exact (Element.of_mem_descendants hdown ⟨h, rfl⟩ hmem).2

/-- A reference that may mean an element of its own file is read as a name. -/
theorem IsLowered.plain_of_target_mem (h : root.IsLowered) (hmem : described ∈ root.descendants)
    {site : ReferenceSite} (hsite : site ∈ described.2.references)
    (hother : other ∈ root.descendants) (hkind : other.2.kind = site.target) :
    (described.2.kind.reference? site.property).bind (·.anchor) = none ∧
      (described.2.kind.reference? site.property).bind (·.qualifier) = none := by
  obtain ⟨spec, hspec, htarget⟩ := (h.conforms described hmem).targeted site hsite
  have hroot : spec.target.rootKind = described.2.kind.rootKind := by
    rw [← htarget, ← hkind, h.isTyped.2.rootKind_of_mem_descendantsFrom hother,
      h.isTyped.2.rootKind_of_mem_descendantsFrom hmem]
  rw [hspec]
  exact ElementKind.plain_of_rootKind_target hspec hroot

end Element

namespace Linker

open Index

variable {linker other : Linker} {package : Package} {kind : ElementKind} {l : Location}
  {text : String} {e e' : IndexEntry}

/-! ## Texts that mean an element of the unit -/

/-- A text is the name of an element below the root of its unit. -/
def IsBelowRoot (linker : Linker) (l : Location) (text : String) (e : IndexEntry) : Prop :=
  ∃ root, linker.rootName? l = some root ∧ e.localName = Name.nested root text

/-- The texts that may mean an element in the unit itself. -/
def Spells (linker : Linker) (l : Location) (text : String) (e : IndexEntry) : Prop :=
  linker.IsBelowRoot l text e ∨ e.localName = text ∨ e.globalId = text

/-- No other text means the element. -/
theorem Inside.spells_of_resolveName (h : linker.Inside (linker.origin l) package)
    (he : linker.resolveName (linker.origin l) text kind = some e) : linker.Spells l text e := by
  have hlocal : ∀ {name}, (linker.index.findLocal l name).filter (·.kind == kind) = some e →
      e.localName = name := fun hfound =>
    (h.confined.coherent.findLocal_eq_some_iff.mp (Option.eq_some_of_filter_eq_some hfound)).2.2
  rw [h.resolveName_eq, Option.or_eq_some_iff] at he
  rcases he with he | ⟨-, he⟩
  · unfold sameUnit? at he
    rw [Option.orElse_eq_or, Option.or_eq_some_iff] at he
    rcases he with he | ⟨-, he⟩
    · exact .inr (.inl (hlocal he))
    · obtain ⟨root, hroot, he⟩ := Option.bind_eq_some_iff.mp he
      exact .inl ⟨root, hroot, hlocal he⟩
  · rw [Option.or_eq_some_iff] at he
    rcases he with he | ⟨-, he⟩
    · obtain ⟨id, hid, hfound⟩ := List.exists_of_findSome?_eq_some he
      exact .inr (.inl ((h.inPackage?_eq_some_iff hid).mp hfound).2.2.1)
    · have hget := Option.eq_some_of_filter_eq_some he
      exact .inr (.inr (h.confined.coherent.get?_eq_some_iff.mp hget).2)

/-- All of them mean the element. -/
theorem Reading.resolveName_of_spells (h : linker.Reading (linker.origin l) package)
    (hmem : e ∈ linker.index.entries) (hl : e.location = l) (hspells : linker.Spells l text e) :
    linker.resolveName (linker.origin l) text e.kind = some e := by
  have hunit : ∀ {name}, linker.sameUnit? (linker.origin l) name e.kind = some e →
      linker.resolveName (linker.origin l) name e.kind = some e := by
    intro name hfound
    rw [h.resolveName_eq, hfound, Option.some_or]
  have hlocal : linker.resolveName (linker.origin l) e.localName e.kind = some e :=
    hunit (h.sameUnit?_eq_some_iff.mpr ⟨⟨hmem, hl, rfl⟩, .inl rfl⟩)
  rcases hspells with ⟨root, hroot, hname⟩ | rfl | rfl
  · exact hunit (h.sameUnit?_eq_some_iff.mpr ⟨⟨hmem, hl, rfl⟩, .inr ⟨root, hroot, hname⟩⟩)
  · exact hlocal
  · by_cases hbare : e.globalId = e.package
    · rw [hbare, ← h.localName_eq_package hmem hbare]
      exact hlocal
    · have hpackage : e.package ∈ linker.namespacesFrom package := by
        rw [h.own e hmem hl]
        exact List.mem_cons_self
      exact h.resolveName_globalId (isTarget_iff.mpr ⟨hmem, hpackage, rfl⟩) hbare

/-! ## The same tree under another name -/

theorem isBelowRoot_iff {rootName suffix : String} (hroot : linker.rootName? l = some rootName)
    (hname : e.localName = rootName ++ suffix) :
    linker.IsBelowRoot l text e ↔ suffix = "." ++ text := by
  unfold IsBelowRoot Name.nested
  rw [hroot, hname]
  constructor
  · rintro ⟨other, hother, hnested⟩
    rw [← Option.some.inj hother, String.append_assoc] at hnested
    exact (String.append_right_inj rootName).mp hnested
  · rintro rfl
    exact ⟨rootName, rfl, (String.append_assoc ..).symm⟩

/-- What means an element of a unit means the element at the same path in another index if it
does not mention the name of the root, and otherwise only if this name is the same. -/
theorem spells_iff {root : Element} {a b p : String} (hi : linker.index.NamedAs l root a)
    (hj : other.index.NamedAs l root b) (hroot : root.HasDistinctFeatures)
    (he : e ∈ linker.index.entriesIn l) (he' : e' ∈ other.index.entriesIn l)
    (hpath : e.path = e'.path) (hp : Name.IsPackageId p)
    (hid : e.globalId = Name.globalId p e.localName)
    (hid' : e'.globalId = Name.globalId p e'.localName) (hspells : linker.Spells l text e) :
    other.Spells l text e' ↔
      linker.IsBelowRoot l text e ∨ other.rootName? l = linker.rootName? l := by
  have hrootName : linker.rootName? l = some a := hi.rootName_eq
  have hrootName' : other.rootName? l = some b := hj.rootName_eq
  obtain ⟨suffix, hname, hname'⟩ := hi.exists_suffix hj hroot he he' hpath
  have hbelow : linker.IsBelowRoot l text e ↔ other.IsBelowRoot l text e' :=
    (isBelowRoot_iff hrootName hname).trans (isBelowRoot_iff hrootName' hname').symm
  have hlocal : e'.localName = e.localName ↔ b = a := by
    rw [hname, hname', String.append_left_inj]
  have hglobal : e'.globalId = e.globalId ↔ b = a := by
    rw [hid, hid', (Name.globalId_injective p).eq_iff, hlocal]
  rw [hrootName, hrootName', Option.some_inj]
  constructor
  · intro hother
    rcases hspells with hspells | hspells | hspells
    · exact .inl hspells
    · rcases hother with hother | hother | hother
      · exact .inl (hbelow.mpr hother)
      · exact .inr (hlocal.mp (hother.trans hspells.symm))
      · -- the name in this index is the global identifier in the other one
        have hmixed : a ++ suffix = Name.globalId p (b ++ suffix) := by
          rw [← hname, ← hname', ← hid', hother, hspells]
        exact .inr (Name.eq_of_append_eq_globalId hp hi.dot_notMem hj.dot_notMem hmixed).symm
    · rcases hother with hother | hother | hother
      · exact .inl (hbelow.mpr hother)
      · have hmixed : b ++ suffix = Name.globalId p (a ++ suffix) := by
          rw [← hname, ← hname', ← hid, hother, hspells]
        exact .inr (Name.eq_of_append_eq_globalId hp hj.dot_notMem hi.dot_notMem hmixed)
      · exact .inr (hglobal.mp (hother.trans hspells.symm))
  · rintro (hspells' | hsame)
    · exact .inl (hbelow.mp hspells')
    · exact hspells.imp hbelow.mp (.imp (hlocal.mpr hsame).trans (hglobal.mpr hsame).trans)

end Linker
end ModelWorkspace
