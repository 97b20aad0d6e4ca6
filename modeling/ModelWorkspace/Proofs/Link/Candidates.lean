import ModelWorkspace.Link.Candidates
import ModelWorkspace.Proofs.Link.Locality

/-!
# Candidates are what names can mean

Candidates are listed from the members of objects, from the unit, from its package and from
the packages it sees, each element once.  What these lists hold is visible, and all that is
visible is in the last two of them.  So for a property without an anchor the candidates are
exactly the visible elements of the expected kind (`mem_entries_candidates_iff`), which is
also what bounds the targets of references.
-/

namespace ModelWorkspace

namespace Candidate

variable {seen : List String} {cs : List Candidate} {c : Candidate}

theorem mem_of_mem_distinct (h : c ∈ distinct seen cs) :
    c ∈ cs ∧ c.entry.globalId ∉ seen := by
  induction cs generalizing seen with
  | nil => exact absurd h List.not_mem_nil
  | cons first rest ih =>
      unfold distinct at h
      split at h
      · exact (ih h).imp_left (List.mem_cons_of_mem _)
      · rename_i hseen
        rcases List.mem_cons.mp h with rfl | h
        · exact ⟨List.mem_cons_self, fun hmem => hseen (List.contains_iff_mem.mpr hmem)⟩
        · obtain ⟨hmem, hnew⟩ := ih h
          exact ⟨List.mem_cons_of_mem _ hmem, fun hold => hnew (List.mem_cons_of_mem _ hold)⟩

/-- Every element that has not occurred before keeps a candidate. -/
theorem exists_mem_distinct (hc : c ∈ cs) (hnew : c.entry.globalId ∉ seen) :
    ∃ kept ∈ distinct seen cs, kept.entry.globalId = c.entry.globalId := by
  induction cs generalizing seen with
  | nil => exact absurd hc List.not_mem_nil
  | cons first rest ih =>
      unfold distinct
      split
      · rename_i hseen
        rcases List.mem_cons.mp hc with rfl | hc
        · exact absurd (List.contains_iff_mem.mp hseen) hnew
        · exact ih hc hnew
      · by_cases hfirst : c.entry.globalId = first.entry.globalId
        · exact ⟨first, List.mem_cons_self, hfirst.symm⟩
        · have hrest : c ∈ rest := by
            refine (List.mem_cons.mp hc).resolve_left ?_
            rintro rfl
            exact hfirst rfl
          obtain ⟨kept, hkept, hid⟩ := ih hrest fun hmem =>
            (List.mem_cons.mp hmem).elim hfirst hnew
          exact ⟨kept, List.mem_cons_of_mem _ hkept, hid⟩

theorem nodup_distinct (seen : List String) (cs : List Candidate) :
    ((distinct seen cs).map (·.entry.globalId)).Nodup := by
  induction cs generalizing seen with
  | nil => exact List.nodup_nil
  | cons first rest ih =>
      unfold distinct
      split
      · exact ih seen
      · rw [List.map_cons, List.nodup_cons]
        refine ⟨fun hmem => ?_, ih _⟩
        obtain ⟨c, hc, hid⟩ := List.mem_map.mp hmem
        refine (mem_of_mem_distinct hc).2 ?_
        rw [hid]
        exact List.mem_cons_self

/-- Of two lists the second one adds elements that the first one has not. -/
theorem mem_distinct_append {others : List Candidate} (h : c ∈ distinct seen (cs ++ others)) :
    c ∈ cs ∨ c ∈ others ∧ ∀ other ∈ cs, other.entry.globalId ≠ c.entry.globalId := by
  induction cs generalizing seen with
  | nil =>
      exact Or.inr ⟨(mem_of_mem_distinct h).1, fun _ hother => absurd hother List.not_mem_nil⟩
  | cons first rest ih =>
      have hrest : ∀ {seen}, first.entry.globalId ∈ seen → c ∈ distinct seen (rest ++ others) →
          c ∈ first :: rest ∨
            c ∈ others ∧ ∀ other ∈ first :: rest, other.entry.globalId ≠ c.entry.globalId := by
        intro seen hfirst hc
        rcases ih hc with hold | ⟨hnew, hall⟩
        · exact Or.inl (List.mem_cons_of_mem _ hold)
        · refine Or.inr ⟨hnew, List.forall_mem_cons.mpr ⟨fun hid => ?_, hall⟩⟩
          exact (mem_of_mem_distinct hc).2 (hid ▸ hfirst)
      rw [List.cons_append] at h
      unfold distinct at h
      split at h
      · rename_i hseen
        exact hrest (List.contains_iff_mem.mp hseen) h
      · rcases List.mem_cons.mp h with rfl | h
        · exact Or.inl List.mem_cons_self
        · exact hrest List.mem_cons_self h

end Candidate

namespace Linker

open Index

variable {linker : Linker} {origin : Origin} {package : Package} {kind : ElementKind}
  {c : Candidate} {e : IndexEntry}

/-- What may be meant in a unit is in its package or in one that this package sees. -/
theorem isTarget_iff : linker.IsTarget package kind e ↔
    e ∈ linker.index.entries ∧ e.package ∈ linker.namespacesFrom package ∧ e.kind = kind := by
  unfold IsTarget visibleFrom
  rw [mem_visible_iff, and_assoc]

/-! ## The lists of candidates -/

theorem Inside.isTarget_of_mem_memberCandidates (h : linker.Inside origin package)
    {entity : IndexEntry} (hentity : entity ∈ linker.visibleFrom package)
    {label : String → String} (hc : c ∈ linker.memberCandidates kind label entity) :
    linker.IsTarget package kind c.entry := by
  obtain ⟨member, hmember, rfl⟩ := List.mem_map.mp hc
  obtain ⟨hmem, hkind⟩ := List.mem_filter.mp hmember
  rw [h.confined.membersOf_eq hentity] at hmem
  exact ⟨List.mem_of_mem_filter hmem, beq_iff_eq.mp hkind⟩

theorem mem_qualifiedCandidates {root : Element} {feature : String}
    (hc : c ∈ linker.qualifiedCandidates origin root feature kind) :
    ∃ objects, root.containment? feature = some objects ∧
      ∃ object ∈ objects.elements, ∃ id entity, object.id = some id ∧
        linker.objectEntity? origin object = some entity ∧
        c ∈ linker.memberCandidates kind (Name.nested id) entity := by
  obtain ⟨object, hobject, hc⟩ := List.mem_flatMap.mp hc
  cases hobjects : root.containment? feature with
  | none =>
      rw [hobjects] at hobject
      exact absurd hobject List.not_mem_nil
  | some objects =>
      rw [hobjects] at hobject
      refine ⟨objects, rfl, object, hobject, ?_⟩
      split at hc
      · rename_i id entity hid hentity
        exact ⟨id, entity, hid, hentity, hc⟩
      · exact absurd hc List.not_mem_nil

theorem mem_unitCandidates (hcoherent : linker.index.Coherent)
    (hc : c ∈ linker.unitCandidates origin kind) :
    (c.entry ∈ linker.index.entries ∧ c.entry.location = origin.location ∧
      c.entry.kind = kind) ∧
      c.label = (origin.rootName.bind fun root => afterName? root c.entry.localName).getD
        c.entry.localName := by
  obtain ⟨entry, hentry, rfl⟩ := List.mem_map.mp hc
  obtain ⟨hmem, hkind⟩ := List.mem_filter.mp hentry
  rw [hcoherent.entriesIn_eq, List.mem_filter, decide_eq_true_iff] at hmem
  exact ⟨⟨hmem.1, hmem.2, beq_iff_eq.mp hkind⟩, rfl⟩

theorem exists_mem_packageCandidates_iff (hcoherent : linker.index.Coherent)
    {distance : Distance} {p : Package} :
    (∃ c ∈ linker.packageCandidates origin kind distance p, c.entry = e) ↔
      e ∈ linker.index.entries ∧ e.package = p.id ∧ e.kind = kind := by
  unfold packageCandidates
  rw [hcoherent.entriesInPackage_eq, List.filter_filter]
  constructor
  · rintro ⟨c, hc, rfl⟩
    obtain ⟨entry, hentry, rfl⟩ := List.mem_map.mp hc
    simpa [and_comm] using hentry
  · rintro ⟨hmem, hpackage, hkind⟩
    refine ⟨_, List.mem_map_of_mem (List.mem_filter.mpr ⟨hmem, ?_⟩), rfl⟩
    simp [hpackage, hkind]

theorem label_of_mem_visibleCandidates (hc : c ∈ linker.visibleCandidates origin kind) :
    c.label = linker.packageLabel origin c.entry := by
  have hlabel : ∀ {distance p}, c ∈ linker.packageCandidates origin kind distance p →
      c.label = linker.packageLabel origin c.entry := by
    intro distance p hc
    obtain ⟨entry, -, rfl⟩ := List.mem_map.mp hc
    rfl
  unfold visibleCandidates at hc
  split at hc
  · exact absurd hc List.not_mem_nil
  · rcases List.mem_append.mp hc with hc | hc
    · exact hlabel hc
    · obtain ⟨p, -, hc⟩ := List.mem_flatMap.mp hc
      exact hlabel hc

/-- What is listed for packages is what may be meant. -/
theorem Inside.exists_mem_visibleCandidates_iff (h : linker.Inside origin package) :
    (∃ c ∈ linker.visibleCandidates origin kind, c.entry = e) ↔
      linker.IsTarget package kind e := by
  have hcoherent := h.confined.coherent
  unfold visibleCandidates
  rw [h.package_eq, isTarget_iff]
  dsimp only
  constructor
  · rintro ⟨c, hc, hentry⟩
    rcases List.mem_append.mp hc with hc | hc
    · obtain ⟨hmem, hpackage, hkind⟩ :=
        (exists_mem_packageCandidates_iff hcoherent).mp ⟨c, hc, hentry⟩
      exact ⟨hmem, List.mem_cons.mpr (Or.inl hpackage), hkind⟩
    · obtain ⟨p, hp, hc⟩ := List.mem_flatMap.mp hc
      obtain ⟨hmem, hpackage, hkind⟩ :=
        (exists_mem_packageCandidates_iff hcoherent).mp ⟨c, hc, hentry⟩
      exact ⟨hmem, List.mem_cons_of_mem _ (List.mem_map.mpr ⟨p, hp, hpackage.symm⟩), hkind⟩
  · rintro ⟨hmem, hpackage, hkind⟩
    rcases List.mem_cons.mp hpackage with hown | hseen
    · obtain ⟨c, hc, hentry⟩ :=
        (exists_mem_packageCandidates_iff hcoherent).mpr ⟨hmem, hown, hkind⟩
      exact ⟨c, List.mem_append_left _ hc, hentry⟩
    · obtain ⟨p, hp, hid⟩ := List.mem_map.mp hseen
      obtain ⟨c, hc, hentry⟩ :=
        (exists_mem_packageCandidates_iff hcoherent).mpr ⟨hmem, hid.symm, hkind⟩
      exact ⟨c, List.mem_append_right _ (List.mem_flatMap.mpr ⟨p, hp, hc⟩), hentry⟩

/-! ## Properties without an anchor -/

/-- The candidates of the form `object.member`, if a property may be written so. -/
def objectCandidates (linker : Linker) (origin : Origin) (root : Element)
    (spec : ReferenceSpec) : List Candidate :=
  match spec.qualifier with
  | some feature => linker.qualifiedCandidates origin root feature spec.target
  | none => []

variable {l : Location} {root element : Element} {path : ElementPath} {property : String}
  {spec : ReferenceSpec}

theorem candidates_eq (hwalk : root.walk path = some element)
    (hspec : element.kind.reference? property = some spec) (hanchor : spec.anchor = none) :
    linker.candidates l root path property =
      Candidate.distinct []
        (linker.objectCandidates (linker.origin l) root spec ++
          linker.unitCandidates (linker.origin l) spec.target ++
          linker.visibleCandidates (linker.origin l) spec.target) := by
  unfold candidates
  rw [hwalk, Option.bind_some, hspec]
  dsimp only
  rw [hanchor]
  rfl

theorem Inside.isTarget_of_mem_objectCandidates (h : linker.Inside origin package)
    (hc : c ∈ linker.objectCandidates origin root spec) :
    linker.IsTarget package spec.target c.entry := by
  unfold objectCandidates at hc
  split at hc
  · obtain ⟨_, -, object, -, _, entity, -, hentity, hc⟩ := mem_qualifiedCandidates hc
    exact h.isTarget_of_mem_memberCandidates (h.visible_objectEntity? hentity) hc
  · exact absurd hc List.not_mem_nil

theorem Inside.isTarget_of_mem_lists (h : linker.Inside origin package)
    (hc : c ∈ linker.objectCandidates origin root spec ++
      linker.unitCandidates origin spec.target ++ linker.visibleCandidates origin spec.target) :
    linker.IsTarget package spec.target c.entry := by
  rcases List.mem_append.mp hc with hc | hc
  · rcases List.mem_append.mp hc with hc | hc
    · exact h.isTarget_of_mem_objectCandidates hc
    · obtain ⟨⟨hmem, hl, hkind⟩, -⟩ := mem_unitCandidates h.confined.coherent hc
      exact isTarget_iff.mpr ⟨hmem, h.confined.visible_of_location _ hmem hl, hkind⟩
  · exact h.exists_mem_visibleCandidates_iff.mp ⟨c, hc, rfl⟩

/-- The candidates are the visible elements of the expected kind. -/
theorem Inside.mem_entries_candidates_iff (h : linker.Inside (linker.origin l) package)
    (hwalk : root.walk path = some element)
    (hspec : element.kind.reference? property = some spec) (hanchor : spec.anchor = none) :
    e ∈ (linker.candidates l root path property).map (·.entry) ↔
      linker.IsTarget package spec.target e := by
  rw [candidates_eq hwalk hspec hanchor, List.mem_map]
  constructor
  · rintro ⟨c, hc, rfl⟩
    exact h.isTarget_of_mem_lists (Candidate.mem_of_mem_distinct hc).1
  · intro htarget
    obtain ⟨c, hc, rfl⟩ := h.exists_mem_visibleCandidates_iff.mpr htarget
    have hlater := List.mem_append_right
      (linker.objectCandidates (linker.origin l) root spec ++
        linker.unitCandidates (linker.origin l) spec.target) hc
    have hnew : c.entry.globalId ∉ ([] : List String) := List.not_mem_nil
    obtain ⟨kept, hkept, hid⟩ := Candidate.exists_mem_distinct hlater hnew
    -- the candidate that is kept may be another one, but it stands for the same element
    have hlisted := h.isTarget_of_mem_lists (Candidate.mem_of_mem_distinct hkept).1
    exact ⟨kept, hkept, h.confined.coherent.entry_unique (isTarget_iff.mp hlisted).1
      (isTarget_iff.mp htarget).1 hid⟩

theorem nodup_entries_candidates (hwalk : root.walk path = some element)
    (hspec : element.kind.reference? property = some spec) (hanchor : spec.anchor = none) :
    ((linker.candidates l root path property).map (·.entry)).Nodup := by
  rw [candidates_eq hwalk hspec hanchor]
  refine List.Nodup.of_map (·.globalId) ?_
  rw [List.map_map]
  exact Candidate.nodup_distinct [] _

end Linker
end ModelWorkspace
