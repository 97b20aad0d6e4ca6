import ModelWorkspace.Proofs.Index.Naming

/-!
# Indexes that answer alike

Two indexes that list the same entries for every unit answer every query alike, in whatever
order the units were indexed (`sameQueries_of_entriesIn`).  Linking asks an index these queries
only, so it finds the same links in both.
-/

namespace ModelWorkspace

namespace Index

variable {i j : Index}

/-- Two indexes answer every query that linking makes alike. -/
structure SameQueries (i j : Index) : Prop where
  get?_eq : ∀ id, i.get? id = j.get? id
  entriesIn_eq : ∀ l, i.entriesIn l = j.entriesIn l
  membersOf_eq : ∀ c, i.membersOf c = j.membersOf c

/-- What the entries of the units are decides what an index answers. -/
theorem sameQueries_of_entriesIn (hi : i.Coherent) (hj : j.Coherent)
    (h : ∀ l, i.entriesIn l = j.entriesIn l) : SameQueries i j := by
  have hmem : ∀ e, e ∈ i.entries ↔ e ∈ j.entries := by
    intro e
    have hin : ∀ {k : Index}, k.Coherent → (e ∈ k.entries ↔ e ∈ k.entriesIn e.location) := by
      intro k hk
      rw [hk.entriesIn_eq, List.mem_filter]
      exact (and_iff_left (decide_eq_true rfl)).symm
    rw [hin hi, hin hj, h]
  have hget : ∀ id, i.get? id = j.get? id := by
    intro id
    refine Option.ext fun e => ?_
    rw [hi.get?_eq_some_iff, hj.get?_eq_some_iff, hmem]
  refine ⟨hget, h, fun c => ?_⟩
  -- all members of an element are in its own unit
  have hmembers : ∀ {k : Index}, k.Coherent → k.membersOf c = (k.get? c).elim []
      fun owner => (k.entriesIn owner.location).filter fun e => e.container = some c := by
    intro k hk
    rw [hk.membersOf_eq]
    cases howner : k.get? c with
    | none =>
        refine List.filter_eq_nil_iff.mpr fun e he hc => ?_
        obtain ⟨owner, hmem, hid, -⟩ := hk.container_mem e he c (of_decide_eq_true hc)
        rw [hk.get?_eq_some_iff.mpr ⟨hmem, hid⟩] at howner
        cases howner
    | some owner =>
        rw [Option.elim_some, hk.entriesIn_eq, List.filter_filter]
        refine List.filter_congr fun e he => ?_
        rw [Bool.eq_iff_iff, Bool.and_eq_true, decide_eq_true_iff, decide_eq_true_iff]
        refine ⟨fun hc => ⟨hc, ?_⟩, fun hboth => hboth.1⟩
        obtain ⟨other, hother, hid, hl⟩ := hk.container_mem e he c hc
        obtain ⟨hmem, hown⟩ := hk.get?_eq_some_iff.mp howner
        rw [← hl, hk.entry_unique hother hmem (hid.trans hown.symm)]
  rw [hmembers hi, hmembers hj, hget]
  cases j.get? c with
  | none => rfl
  | some owner => rw [Option.elim_some, Option.elim_some, h]

end Index

namespace Linker

variable {i j : Index} {packages : PackageGraph} {scope : DependencyScope} {origin : Origin}

/-- Indexes that answer alike give every unit the same links. -/
theorem link_eq_of_sameQueries (h : i.SameQueries j) (l : Location) (root : Element) :
    link ⟨i, packages, scope⟩ l root = link ⟨j, packages, scope⟩ l root := by
  have hlocal : ∀ l name, i.findLocal l name = j.findLocal l name := by
    intro l name
    unfold Index.findLocal
    rw [h.entriesIn_eq]
  have horigin : Linker.origin ⟨i, packages, scope⟩ l = Linker.origin ⟨j, packages, scope⟩ l := by
    unfold Linker.origin rootName?
    rw [h.entriesIn_eq]
  have hname : ∀ origin name kind, resolveName ⟨i, packages, scope⟩ origin name kind =
      resolveName ⟨j, packages, scope⟩ origin name kind := by
    intro origin name kind
    unfold resolveName sameUnit? inPackage? byGlobalId? namespacesFrom
    simp only [hlocal, h.get?_eq]
  have hsite : ∀ origin root links path kind site,
      resolveSite ⟨i, packages, scope⟩ origin root links path kind site =
        resolveSite ⟨j, packages, scope⟩ origin root links path kind site := by
    intro origin root links path kind site
    unfold resolveSite resolveQualified? objectEntity? resolveMember
    simp only [hname, hlocal]
  have helement : linkElement ⟨i, packages, scope⟩ = linkElement ⟨j, packages, scope⟩ := by
    funext origin root links described
    have hlinkSite : linkSite ⟨i, packages, scope⟩ origin root described.1 described.2.kind =
        linkSite ⟨j, packages, scope⟩ origin root described.1 described.2.kind := by
      funext links site
      unfold linkSite
      rw [hsite]
    unfold linkElement implicitMembers
    simp only [hlinkSite, h.membersOf_eq]
  unfold link
  rw [horigin, helement]

end Linker
end ModelWorkspace
