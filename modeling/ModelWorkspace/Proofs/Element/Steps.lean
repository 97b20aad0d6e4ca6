import ModelWorkspace.Element.Lowering

/-!
# What a property does to an element

Lowering looks at a property once: its key may be used up, declare the identifier, nest elements,
refer to others, or have no meaning of its own (`Lowering.Adds`).  Nothing else is known of
`addMember` later; what lowering keeps is shown by one case for each of the five
(`Lowering.exists_adds`), and what is nested under a key by the four ways to read it
(`Lowering.Nests`).
-/

namespace ModelWorkspace
namespace Lowering

/-- The scalars that a property names are those of its value or, without one, of its items. -/
theorem exists_of_mem_referenceScalars {value : Option Value} {members : List Member}
    {s : Scalar} (h : s ∈ referenceScalars value members) :
    (∃ v ∈ value, s ∈ v.scalars) ∨
      ∃ range v nested, .item range (some v) nested ∈ members ∧ s ∈ v.scalars := by
  cases value with
  | some v => exact .inl ⟨v, rfl, h⟩
  | none =>
      obtain ⟨m, hm, hs⟩ := List.mem_flatMap.mp h
      split at hs
      · exact .inr ⟨_, _, _, hm, hs⟩
      · cases hs

/-- Items count unless there is a value in front of them. -/
theorem isNone_listReports (entry : Entry) : (listReports entry).isNone = entry.value.isSome := by
  unfold listReports
  split
  · rename_i hvalue
    exact hvalue.symm
  · rename_i hvalue
    exact (Bool.eq_false_iff.mpr hvalue).symm

/-- The elements that an entry holds under a containment feature, with the reports on them;
`range` is that of the property. -/
def nestedElements (spec : ContainmentSpec) (range : TextRange) (entry : Entry) :
    List Element × List SyntaxError :=
  if spec.many then
    match listReports entry with
    | none =>
      ([], [⟨quoted entry.key ++ " expects a list of " ++ spec.kind.description ++ " items",
        entry.keyRange⟩])
    | some reports =>
      let (elements, errors) := itemElements spec.kind entry.members
      (elements, reports ++ errors)
  else
    match entry.block with
    | some _ =>
      let (child, errors) := addMembers { kind := spec.kind, range := range } [] entry.members
      ([child], errors)
    | none => ([], [⟨quoted entry.key ++ " expects an indented block", entry.keyRange⟩])

/-- The elements under a containment feature, with the reports on them, by the way they are
written. -/
inductive Nests (spec : ContainmentSpec) (range : TextRange) (entry : Entry) :
    List Element × List SyntaxError → Prop
  | noList (many : spec.many = true) (valued : listReports entry = none) :
      Nests spec range entry
        ([], [⟨quoted entry.key ++ " expects a list of " ++ spec.kind.description ++ " items",
          entry.keyRange⟩])
  | list {reports : List SyntaxError} (many : spec.many = true)
      (listed : listReports entry = some reports) :
      Nests spec range entry
        ((itemElements spec.kind entry.members).1,
          reports ++ (itemElements spec.kind entry.members).2)
  | block {place : TextRange} (single : spec.many = false) (written : entry.block = some place) :
      Nests spec range entry
        ([(addMembers { kind := spec.kind, range := range } [] entry.members).1],
          (addMembers { kind := spec.kind, range := range } [] entry.members).2)
  | noBlock (single : spec.many = false) (missing : entry.block = none) :
      Nests spec range entry
        ([], [⟨quoted entry.key ++ " expects an indented block", entry.keyRange⟩])

theorem nests_nestedElements (spec : ContainmentSpec) (range : TextRange) (entry : Entry) :
    Nests spec range entry (nestedElements spec range entry) := by
  unfold nestedElements
  split
  · rename_i hmany
    split
    · rename_i hvalued
      exact .noList hmany hvalued
    · rename_i reports hlisted
      exact .list hmany hlisted
  · rename_i hmany
    have hsingle : spec.many = false := by simpa using hmany
    split
    · rename_i place hwritten
      exact .block hsingle hwritten
    · rename_i hmissing
      exact .noBlock hsingle hmissing

theorem Nests.nestedElements_eq {spec : ContainmentSpec} {range : TextRange} {entry : Entry}
    {made : List Element × List SyntaxError} (h : Nests spec range entry made) :
    nestedElements spec range entry = made := by
  unfold nestedElements
  cases h with
  | noList many valued => rw [if_pos many, valued]
  | list many listed => rw [if_pos many, listed]
  | block single written => rw [if_neg (by simp [single]), written]
  | noBlock single missing => rw [if_neg (by simp [single]), missing]

/-- What becomes of an element, of the keys in `seen` that are used up, and what is reported, when
a property is added. -/
inductive Adds (e : Element) (seen : List String) (range : TextRange) (entry : Entry) :
    Element × List String × List SyntaxError → Prop
  | again (used : entry.key ∈ seen) :
      Adds e seen range entry
        (e, seen, [⟨"duplicate property " ++ quoted entry.key, entry.keyRange⟩])
  | identifies (new : entry.key ∉ seen) (declares : entry.key = "id" ∧ e.kind.declaresId = true) :
      Adds e seen range entry
        ((declareId e entry).1, entry.key :: seen, (declareId e entry).2)
  | contains {spec : ContainmentSpec} {made : List Element × List SyntaxError}
      (new : entry.key ∉ seen) (other : ¬(entry.key = "id" ∧ e.kind.declaresId = true))
      (known : e.kind.containment? entry.key = some spec) (nests : Nests spec range entry made) :
      Adds e seen range entry
        ({ e with children := e.children ++ [⟨entry.key, made.1⟩] }, entry.key :: seen, made.2)
  | refers {spec : ReferenceSpec} (new : entry.key ∉ seen)
      (other : ¬(entry.key = "id" ∧ e.kind.declaresId = true))
      (nothingNested : e.kind.containment? entry.key = none)
      (known : e.kind.reference? entry.key = some spec) :
      Adds e seen range entry
        ((addReferences e spec entry).1, entry.key :: seen, (addReferences e spec entry).2)
  | plain (new : entry.key ∉ seen) (other : ¬(entry.key = "id" ∧ e.kind.declaresId = true))
      (nothingNested : e.kind.containment? entry.key = none)
      (noReference : e.kind.reference? entry.key = none) :
      Adds e seen range entry (addPlain e entry, entry.key :: seen, [])

/-- The property that an entry is read from. -/
def Entry.member (entry : Entry) (range : TextRange) : Member :=
  .property range entry.key entry.keyRange entry.value entry.block entry.members

theorem adds_member (e : Element) (seen : List String) (range : TextRange) (entry : Entry) :
    Adds e seen range entry (addMember e seen (entry.member range)) := by
  rw [Entry.member, addMember]
  dsimp only
  by_cases hseen : entry.key ∈ seen
  · rw [if_pos hseen]
    exact .again hseen
  rw [if_neg hseen]
  by_cases hid : entry.key = "id" ∧ e.kind.declaresId = true
  · rw [if_pos hid]
    exact .identifies hseen hid
  rw [if_neg hid]
  split
  · rename_i spec hknown
    exact .contains hseen hid hknown (nests_nestedElements spec range entry)
  · rename_i hcontainment
    split
    · rename_i spec hknown
      exact .refers hseen hid hcontainment hknown
    · rename_i hreference
      exact .plain hseen hid hcontainment hreference

theorem exists_adds (e : Element) (seen : List String) (range : TextRange) (key : String)
    (keyRange : TextRange) (value : Option Value) (block : Option TextRange)
    (members : List Member) :
    ∃ added, addMember e seen (.property range key keyRange value block members) = added ∧
      Adds e seen range ⟨key, keyRange, value, block, members⟩ added :=
  ⟨_, rfl, adds_member e seen range ⟨key, keyRange, value, block, members⟩⟩

/-- A property does one thing only. -/
theorem Adds.addMember_eq {e : Element} {seen : List String} {range : TextRange} {entry : Entry}
    {added : Element × List String × List SyntaxError} (h : Adds e seen range entry added) :
    addMember e seen (entry.member range) = added := by
  rw [Entry.member, addMember]
  dsimp only
  cases h with
  | again used => rw [if_pos used]
  | identifies new declares => rw [if_neg new, if_pos declares]
  | contains new other known nests =>
      rw [if_neg new, if_neg other, known, ← nests.nestedElements_eq]
      rfl
  | refers new other nothingNested known => rw [if_neg new, if_neg other, nothingNested, known]
  | plain new other nothingNested noReference =>
      rw [if_neg new, if_neg other, nothingNested, noReference]

/-- The root of a file is made of what a property at the top holds, or of nothing if no block
is written there. -/
theorem exists_of_root {ms : List Member} {e : Element} (h : (root ms).1 = some e) :
    ∃ range key keyRange value block members kind,
      .property range key keyRange value block members ∈ ms ∧
        ElementKind.ofRootKey? key = some kind ∧
        (e = { kind := kind, range := range } ∨
          e = (addMembers { kind := kind, range := range } [] members).1) := by
  induction ms with
  | nil => cases h
  | cons m rest ih =>
      cases m with
      | item =>
          obtain ⟨range, key, keyRange, value, block, members, kind, hmem, hmade⟩ := ih h
          exact ⟨range, key, keyRange, value, block, members, kind,
            List.mem_cons_of_mem _ hmem, hmade⟩
      | property range key keyRange value block members =>
          rw [root] at h
          split at h
          · cases h
          · rename_i kind hkind
            refine ⟨range, key, keyRange, value, block, members, kind, List.mem_cons_self,
              hkind, ?_⟩
            split at h
            · exact .inl (Option.some.inj h).symm
            · exact .inr (Option.some.inj h).symm

end Lowering
end ModelWorkspace
