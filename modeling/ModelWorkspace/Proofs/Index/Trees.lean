import ModelWorkspace.Proofs.Index.Containment

/-!
# Indexes of lowered trees

What indexing one lowered tree after the other leads to.  Each location then has the entries
of the tree that was last indexed there, in the order its elements are written
(`OfTrees.entriesIn_eq`); packages and declared identifiers may be any.

If the identifiers are valid, an entry has as many dots in its name as its kind lies below
the root (`OfTrees.count_dot`), which also tells how many its global identifier has
(`OfTrees.count_dot_globalId`).
-/

namespace ModelWorkspace

/-- All identifiers that are declared in a tree are valid. -/
def Element.DeclaresIdentifiers (root : Element) : Prop :=
  ∀ described ∈ root.descendants, ∀ id ∈ described.2.id, isIdentifier id = true

instance (root : Element) : Decidable root.DeclaresIdentifiers :=
  inferInstanceAs (Decidable (∀ described ∈ root.descendants, ∀ id ∈ described.2.id,
    isIdentifier id = true))

/-- What a plan for a tree under a package asks for. -/
structure UnitPlan.IsFor (plan : UnitPlan) (l : Location) (packages : String → Prop)
    (trees : Element → Prop) : Prop where
  location : plan.location = l
  package : packages plan.package
  lowered : plan.root.IsLowered
  tree : trees plan.root
  rootName : plan.root.id = some plan.rootName

theorem UnitPlan.IsFor.of_ofRoot {plan : UnitPlan} {l : Location} {package : String}
    {root : Element} {packages : String → Prop} {trees : Element → Prop}
    (h : UnitPlan.ofRoot l package root = .ok plan) (hpackage : packages package)
    (hlowered : root.IsLowered) (htree : trees root) : plan.IsFor l packages trees := by
  unfold UnitPlan.ofRoot at h
  split at h
  · rename_i id hid
    cases h
    exact ⟨rfl, hpackage, hlowered, htree, hid⟩
  · cases h

theorem UnitPlan.IsFor.isNameable {plan : UnitPlan} {l : Location} {packages : String → Prop}
    (h : plan.IsFor l packages Element.DeclaresIdentifiers)
    (hpackages : ∀ p, packages p → Name.IsPackageId p) : plan.IsNameable where
  root := h.lowered.isNameable fun described hmem id hid =>
    .of_isIdentifier (h.tree described hmem id hid)
  rootName := .of_isIdentifier
    (h.tree (ElementPath.root, plan.root) (Element.mem_descendantsFrom_iff.mpr (Or.inl rfl))
      plan.rootName h.rootName)
  package := hpackages plan.package h.package

namespace Index

/-- The indexes that indexing lowered trees, one after the other, leads to. -/
inductive OfTrees (packages : String → Prop) (trees : Element → Prop) : Index → Prop
  | empty : OfTrees packages trees Index.empty
  | insertUnit {index : Index} {l : Location} {package : String} {root : Element}
      {plan : UnitPlan} (h : OfTrees packages trees index) (hpackage : packages package)
      (hlowered : root.IsLowered) (htree : trees root)
      (hplan : UnitPlan.ofRoot l package root = .ok plan) :
      OfTrees packages trees (index.insertUnit plan).2

namespace OfTrees

variable {packages : String → Prop} {trees : Element → Prop} {index : Index}

theorem coherent (h : index.OfTrees packages trees) : index.Coherent := by
  induction h with
  | empty => exact coherent_empty
  | insertUnit _ _ _ _ _ ih => exact ih.insertUnit _

/-- The entries of a location are those of the tree that was last indexed there. -/
theorem entriesIn_eq (h : index.OfTrees packages trees) (l : Location) :
    index.entriesIn l = [] ∨ ∃ plan : UnitPlan, plan.IsFor l packages trees ∧
      ∃ taken, index.entriesIn l = plan.newEntries taken := by
  induction h with
  | empty => exact Or.inl rfl
  | @insertUnit index _ _ _ plan h hpackage hlowered htree hplan ih =>
      rw [h.coherent.entriesIn_eq] at ih
      rw [(h.coherent.insertUnit plan).entriesIn_eq, entries_insertUnit h.coherent,
        List.filter_append, List.filter_filter]
      have hnew : ∀ {taken}, ∀ e ∈ plan.newEntries taken, e.location = plan.location :=
        fun e he => (UnitPlan.mem_newEntries he).1
      have hfor := UnitPlan.IsFor.of_ofRoot hplan hpackage hlowered htree
      rw [← hfor.location] at hfor
      by_cases hl : l = plan.location
      · -- what was indexed there before is gone
        subst hl
        refine Or.inr ⟨plan, hfor,
          (index.entries.filter fun e => e.location ≠ plan.location).map (·.globalId), ?_⟩
        rw [List.filter_eq_nil_iff.mpr, List.filter_eq_self.mpr, List.nil_append]
        · exact fun e he => decide_eq_true (hnew e he)
        · simp
      · have hother : ∀ {taken}, (plan.newEntries taken).filter (fun e => e.location = l) = [] := by
          intro taken
          refine List.filter_eq_nil_iff.mpr fun e he => ?_
          rw [hnew e he]
          simpa using Ne.symm hl
        have hkept : ∀ e : IndexEntry, (decide (e.location = l) &&
            decide (e.location ≠ plan.location)) = decide (e.location = l) := by
          intro e
          by_cases he : e.location = l
          · simp [he, hl]
          · simp [he]
        rw [hother, List.append_nil]
        simp only [hkept]
        exact ih

theorem exists_plan (h : index.OfTrees packages trees) {e : IndexEntry}
    (he : e ∈ index.entries) : ∃ plan : UnitPlan, plan.IsFor e.location packages trees ∧
      ∃ taken, index.entriesIn e.location = plan.newEntries taken ∧
        e ∈ plan.newEntries taken := by
  have hmem : e ∈ index.entriesIn e.location := by
    rw [h.coherent.entriesIn_eq]
    exact List.mem_filter.mpr ⟨he, decide_eq_true rfl⟩
  rcases h.entriesIn_eq e.location with hnone | ⟨plan, hplan, taken, heq⟩
  · rw [hnone] at hmem
    exact absurd hmem List.not_mem_nil
  · exact ⟨plan, hplan, taken, heq, heq ▸ hmem⟩

theorem package (h : index.OfTrees packages trees) {e : IndexEntry} (he : e ∈ index.entries) :
    packages e.package := by
  obtain ⟨plan, hplan, taken, -, hmem⟩ := h.exists_plan he
  rw [(UnitPlan.mem_newEntries hmem).2.1]
  exact hplan.package

/-! ## Dots in names and identifiers -/

section Identifiers

variable (h : index.OfTrees packages Element.DeclaresIdentifiers)
  (hpackages : ∀ p, packages p → Name.IsPackageId p) {e : IndexEntry}
include h hpackages

theorem count_dot (he : e ∈ index.entries) :
    e.localName.toList.count '.' = e.kind.level := by
  obtain ⟨plan, hplan, taken, -, hmem⟩ := h.exists_plan he
  exact UnitPlan.count_dot_of_mem_newEntries (hplan.isNameable hpackages)
    hplan.lowered.isTyped.2 hplan.lowered.isTyped.1 hmem

/-- A global identifier has one dot more than the name, unless it is that of the package. -/
theorem count_dot_globalId (he : e ∈ index.entries) :
    e.globalId = e.package ∧ e.localName = e.package ∨
      e.globalId.toList.count '.' = e.kind.level + 1 := by
  have hid := h.coherent.globalId_eq e he
  have hpackage := hpackages e.package (h.package he)
  unfold Name.globalId at hid
  rw [if_neg hpackage.ne_empty] at hid
  by_cases hname : e.localName = e.package
  · rw [if_pos hname] at hid
    exact Or.inl ⟨hid, hname⟩
  · rw [if_neg hname] at hid
    have hcount := Name.count_dot_nested e.package e.localName
    rw [List.count_eq_zero.mpr hpackage.dot_notMem, h.count_dot hpackages he] at hcount
    refine Or.inr ?_
    rw [hid]
    show (Name.nested e.package e.localName).toList.count '.' = _
    omega

end Identifiers

end OfTrees
end Index
end ModelWorkspace
