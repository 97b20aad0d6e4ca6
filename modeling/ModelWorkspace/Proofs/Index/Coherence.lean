import ModelWorkspace.Index.Insert
import ModelWorkspace.Proofs.Name.Global
import ModelWorkspace.Proofs.Text.LocationMap

/-!
# The tables of an index agree with its entries

An index is coherent when its tables list what a look through its entries would find,
when global identifiers are used once and show package and name, and when the entries
of one location have one package and lie below entries of that location.  Adding an
entry under a free identifier and removing a location keep an index coherent.

In a coherent index every query is a filter of the entries (`entriesIn_eq`,
`entriesInPackage_eq`, `membersOf_eq`, `get?_eq_some_iff`).
-/

namespace ModelWorkspace

namespace Groups

theorem lookup_addTo (key id other : String) (groups : List (String × List String)) :
    ((addTo key id groups).lookup other).getD [] =
      if other = key then (groups.lookup key).getD [] ++ [id]
      else (groups.lookup other).getD [] := by
  induction groups with
  | nil =>
      by_cases h : other = key
      · simp [addTo, h]
      · have hother : (other == key) = false := beq_false_of_ne h
        simp [addTo, List.lookup, h, hother]
  | cons first rest ih =>
      obtain ⟨name, ids⟩ := first
      unfold addTo
      by_cases hname : key = name
      · subst hname
        by_cases h : other = key
        · simp [List.lookup, h]
        · have hother : (other == key) = false := beq_false_of_ne h
          simp [List.lookup, h, hother]
      · have hkey : (key == name) = false := beq_false_of_ne hname
        rw [if_neg hname]
        by_cases h : other = name
        · subst h
          simp [List.lookup, Ne.symm hname]
        · have hother : (other == name) = false := beq_false_of_ne h
          simp only [List.lookup, hother, hkey]
          exact ih

theorem get_add (g : Groups) (key id other : String) :
    (g.add key id).get other = if other = key then g.get key ++ [id] else g.get other :=
  lookup_addTo key id other g.groups

theorem get_remove (g : Groups) (ids : List String) (key : String) :
    (g.remove ids).get key = (g.get key).filter fun id => !ids.contains id := by
  unfold remove get
  induction g.groups with
  | nil => rfl
  | cons first rest ih =>
      obtain ⟨name, group⟩ := first
      cases h : key == name with
      | true => simp [List.lookup, h]
      | false =>
          simp only [List.map_cons, List.lookup, h]
          exact ih

theorem get_removeKeys (g : Groups) (keys : List String) (key : String) :
    (g.removeKeys keys).get key = if keys.contains key then [] else g.get key := by
  unfold removeKeys get
  induction g.groups with
  | nil => simp
  | cons first rest ih =>
      obtain ⟨name, group⟩ := first
      rw [List.filter_cons]
      by_cases h : key = name
      · subst h
        cases hkeys : keys.contains key with
        | true =>
            rw [hkeys] at ih
            simp only [hkeys, Bool.not_true, Bool.false_eq_true, if_false]
            exact ih
        | false => simp only [hkeys, Bool.not_false, if_true, List.lookup, beq_self_eq_true,
            Bool.false_eq_true, if_false]
      · have hne : (key == name) = false := beq_false_of_ne h
        cases hkeys : keys.contains name with
        | true =>
            simp only [hkeys, Bool.not_true, Bool.false_eq_true, if_false, List.lookup, hne]
            exact ih
        | false =>
            simp only [hkeys, Bool.not_false, if_true, List.lookup, hne]
            exact ih

/-! Identifiers and keys leave in any order. -/

theorem remove_comm (g : Groups) (ids others : List String) :
    (g.remove ids).remove others = (g.remove others).remove ids := by
  unfold remove
  rw [List.map_map, List.map_map]
  refine congrArg Groups.mk (List.map_congr_left fun group _ => Prod.ext rfl ?_)
  show (group.2.filter _).filter _ = (group.2.filter _).filter _
  rw [List.filter_filter, List.filter_filter]
  exact List.filter_congr fun id _ => Bool.and_comm _ _

theorem removeKeys_comm (g : Groups) (keys others : List String) :
    (g.removeKeys keys).removeKeys others = (g.removeKeys others).removeKeys keys := by
  unfold removeKeys
  rw [List.filter_filter, List.filter_filter]
  exact congrArg Groups.mk (List.filter_congr fun group _ => Bool.and_comm _ _)

theorem removeKeys_remove (g : Groups) (ids keys : List String) :
    (g.remove ids).removeKeys keys = (g.removeKeys keys).remove ids := by
  unfold remove removeKeys
  rw [List.filter_map]
  rfl

theorem remove_nil (g : Groups) : g.remove [] = g := by
  unfold remove
  refine congrArg Groups.mk ((List.map_congr_left fun group _ => ?_).trans (List.map_id _))
  exact Prod.ext rfl (List.filter_eq_self.mpr fun _ _ => rfl)

theorem removeKeys_nil (g : Groups) : g.removeKeys [] = g :=
  congrArg Groups.mk (List.filter_eq_self.mpr fun _ _ => rfl)

end Groups

namespace Index

/-- The tables of an index list what its entries say. -/
structure Coherent (index : Index) : Prop where
  ids_nodup : index.ids.Nodup
  idsIn_eq : ∀ l,
    index.idsIn l = (index.entries.filter fun e => e.location = l).map (·.globalId)
  byPackage_eq : ∀ p,
    index.byPackage.get p = (index.entries.filter fun e => e.package = p).map (·.globalId)
  byContainer_eq : ∀ c,
    index.byContainer.get c =
      (index.entries.filter fun e => e.container = some c).map (·.globalId)
  globalId_eq : ∀ e ∈ index.entries, e.globalId = Name.globalId e.package e.localName
  package_eq : ∀ e ∈ index.entries, ∀ other ∈ index.entries,
    e.location = other.location → e.package = other.package
  container_mem : ∀ e ∈ index.entries, ∀ c, e.container = some c →
    ∃ owner ∈ index.entries, owner.globalId = c ∧ owner.location = e.location

theorem coherent_empty : Coherent empty where
  ids_nodup := List.nodup_nil
  idsIn_eq := fun _ => rfl
  byPackage_eq := fun _ => rfl
  byContainer_eq := fun _ => rfl
  globalId_eq := fun _ h => absurd h List.not_mem_nil
  package_eq := fun _ h => absurd h List.not_mem_nil
  container_mem := fun _ h => absurd h List.not_mem_nil

theorem ids_add (index : Index) (entry : IndexEntry) :
    (index.add entry).ids = index.ids ++ [entry.globalId] :=
  List.map_append

theorem contains_iff {index : Index} {id : String} :
    index.contains id = true ↔ id ∈ index.ids := by
  unfold contains ids
  rw [List.any_eq_true, List.mem_map]
  exact exists_congr fun e => and_congr_right fun _ => beq_iff_eq

/-- Dropping the identifiers of a location from a list of identifiers drops its entries. -/
theorem filter_ids (index : Index) (l : Location) (p : IndexEntry → Bool) :
    ((index.entries.filter p).map (·.globalId)).filter (fun id => !(index.idsIn l).contains id) =
      ((index.withoutLocation l).entries.filter p).map (·.globalId) := by
  rw [List.filter_map]
  congr 1
  rw [List.filter_filter]
  show _ = (index.entries.filter _).filter p
  rw [List.filter_filter]
  refine List.filter_congr fun e _ => ?_
  rw [Bool.and_comm]
  rfl

namespace Coherent

variable {index : Index}

/-- A global identifier belongs to one entry. -/
theorem entry_unique (h : index.Coherent) {a b : IndexEntry} (ha : a ∈ index.entries)
    (hb : b ∈ index.entries) (hid : a.globalId = b.globalId) : a = b :=
  List.inj_on_of_nodup_map h.ids_nodup ha hb hid

theorem get?_eq_some_iff (h : index.Coherent) {id : String} {e : IndexEntry} :
    index.get? id = some e ↔ e ∈ index.entries ∧ e.globalId = id := by
  unfold get?
  constructor
  · intro hfind
    exact ⟨List.mem_of_find?_eq_some hfind, by simpa using List.find?_some hfind⟩
  · rintro ⟨hmem, rfl⟩
    cases hfind : index.entries.find? (·.globalId == e.globalId) with
    | none =>
        have := List.find?_eq_none.mp hfind e hmem
        simp at this
    | some other =>
        have hid : other.globalId = e.globalId := by simpa using List.find?_some hfind
        rw [h.entry_unique (List.mem_of_find?_eq_some hfind) hmem hid]

/-- Looking up the identifiers of some entries gives these entries again. -/
theorem filterMap_get? (h : index.Coherent) (p : IndexEntry → Bool) :
    ((index.entries.filter p).map (·.globalId)).filterMap index.get? =
      index.entries.filter p := by
  rw [List.filterMap_map]
  have hget : ∀ e ∈ index.entries.filter p, (index.get? ∘ (·.globalId)) e = some e := by
    intro e he
    exact h.get?_eq_some_iff.mpr ⟨List.mem_of_mem_filter he, rfl⟩
  rw [List.filterMap_congr hget, List.filterMap_some]

theorem entriesIn_eq (h : index.Coherent) (l : Location) :
    index.entriesIn l = index.entries.filter fun e => e.location = l := by
  unfold entriesIn
  rw [h.idsIn_eq, h.filterMap_get?]

theorem entriesInPackage_eq (h : index.Coherent) (p : String) :
    index.entriesInPackage p = index.entries.filter fun e => e.package = p := by
  unfold entriesInPackage
  rw [h.byPackage_eq, h.filterMap_get?]

theorem membersOf_eq (h : index.Coherent) (c : String) :
    index.membersOf c = index.entries.filter fun e => e.container = some c := by
  unfold membersOf
  rw [h.byContainer_eq, h.filterMap_get?]

/-! ## Adding an entry -/

theorem add (h : index.Coherent) {entry : IndexEntry} (hfree : entry.globalId ∉ index.ids)
    (hid : entry.globalId = Name.globalId entry.package entry.localName)
    (hpackage : ∀ e ∈ index.entries, e.location = entry.location → e.package = entry.package)
    (howner : ∀ c, entry.container = some c →
      ∃ owner ∈ index.entries, owner.globalId = c ∧ owner.location = entry.location) :
    (index.add entry).Coherent where
  ids_nodup := by
    rw [ids_add]
    exact List.nodup_append.mpr ⟨h.ids_nodup, List.nodup_singleton _, by
      intro a ha b hb heq
      rw [List.mem_singleton] at hb
      exact hfree (hb ▸ heq ▸ ha)⟩
  idsIn_eq := by
    intro l
    unfold Index.add idsIn
    rw [LocationMap.get?_insert, List.filter_append, List.map_append]
    by_cases hl : l = entry.location
    · rw [if_pos hl, hl, ← h.idsIn_eq]
      simp [idsIn]
    · rw [if_neg hl, ← h.idsIn_eq]
      simp [idsIn, Ne.symm hl]
  byPackage_eq := by
    intro p
    unfold Index.add
    rw [Groups.get_add, List.filter_append, List.map_append, ← h.byPackage_eq]
    by_cases hp : p = entry.package
    · simp [hp]
    · simp [hp, Ne.symm hp]
  byContainer_eq := by
    -- roots have no container, so they leave this table alone
    intro c
    unfold Index.add
    rw [List.filter_append, List.map_append, ← h.byContainer_eq]
    cases hcontainer : entry.container with
    | none => simp [hcontainer]
    | some container =>
        rw [Groups.get_add]
        by_cases hc : c = container
        · simp [hc, hcontainer]
        · simp [hc, hcontainer, Ne.symm hc]
  globalId_eq := by
    intro e he
    rcases List.mem_append.mp he with he | he
    · exact h.globalId_eq e he
    · rw [List.mem_singleton.mp he]
      exact hid
  package_eq := by
    intro e he other hother hl
    rcases List.mem_append.mp he with he | he
    · rcases List.mem_append.mp hother with hother | hother
      · exact h.package_eq e he other hother hl
      · rw [List.mem_singleton.mp hother] at hl ⊢
        exact hpackage e he hl
    · rw [List.mem_singleton.mp he] at hl ⊢
      rcases List.mem_append.mp hother with hother | hother
      · exact (hpackage other hother hl.symm).symm
      · rw [List.mem_singleton.mp hother]
  container_mem := by
    intro e he c hc
    have hkept : ∀ owner ∈ index.entries, owner ∈ (index.add entry).entries :=
      fun owner hmem => List.mem_append_left _ hmem
    rcases List.mem_append.mp he with he | he
    · obtain ⟨owner, hmem, howns⟩ := h.container_mem e he c hc
      exact ⟨owner, hkept owner hmem, howns⟩
    · rw [List.mem_singleton.mp he] at hc ⊢
      obtain ⟨owner, hmem, howns⟩ := howner c hc
      exact ⟨owner, hkept owner hmem, howns⟩

/-! ## Removing a location -/

theorem mem_idsIn_iff (h : index.Coherent) {l : Location} {e : IndexEntry}
    (he : e ∈ index.entries) : e.globalId ∈ index.idsIn l ↔ e.location = l := by
  rw [h.idsIn_eq, List.mem_map]
  constructor
  · rintro ⟨other, hmem, hid⟩
    obtain ⟨hother, hl⟩ := List.mem_filter.mp hmem
    rw [← h.entry_unique hother he hid]
    exact of_decide_eq_true hl
  · intro hl
    exact ⟨e, List.mem_filter.mpr ⟨he, decide_eq_true hl⟩, rfl⟩

theorem entries_withoutLocation (h : index.Coherent) (l : Location) :
    (index.withoutLocation l).entries = index.entries.filter fun e => e.location ≠ l := by
  show index.entries.filter _ = _
  refine List.filter_congr fun e he => ?_
  rw [Bool.eq_iff_iff, Bool.not_eq_true', ← Bool.not_eq_true, List.contains_iff_mem,
    h.mem_idsIn_iff he]
  simp

theorem withoutLocation (h : index.Coherent) (l : Location) :
    (index.withoutLocation l).Coherent where
  ids_nodup := by
    have hsub : (index.withoutLocation l).entries.Sublist index.entries := List.filter_sublist
    exact h.ids_nodup.sublist (hsub.map _)
  idsIn_eq := by
    intro other
    rw [h.entries_withoutLocation, List.filter_filter]
    show ((index.byLocation.erase l).get? other).getD [] = _
    rw [LocationMap.get?_erase]
    by_cases hl : other = l
    · rw [if_pos hl, Option.getD_none, eq_comm, List.map_eq_nil_iff, List.filter_eq_nil_iff]
      intro e _
      simp [hl]
    · rw [if_neg hl]
      show index.idsIn other = _
      rw [h.idsIn_eq]
      congr 1
      refine List.filter_congr fun e _ => ?_
      by_cases he : e.location = other
      · simp [he, hl]
      · simp [he]
  byPackage_eq := by
    intro p
    rw [← filter_ids index l]
    show (index.byPackage.remove (index.idsIn l)).get p = _
    rw [Groups.get_remove, h.byPackage_eq]
  byContainer_eq := by
    intro c
    rw [← filter_ids index l]
    show ((index.byContainer.removeKeys (index.idsIn l)).remove (index.idsIn l)).get c = _
    rw [Groups.get_remove, Groups.get_removeKeys, h.byContainer_eq]
    cases hc : (index.idsIn l).contains c with
    | false => simp
    | true =>
        -- what lies below an element of the location belongs to the location itself
        rw [if_pos rfl, List.filter_nil, eq_comm, List.filter_eq_nil_iff]
        intro id hid
        obtain ⟨e, hmem, rfl⟩ := List.mem_map.mp hid
        obtain ⟨he, hcontainer⟩ := List.mem_filter.mp hmem
        obtain ⟨owner, howner, rfl, hl⟩ :=
          h.container_mem e he c (of_decide_eq_true hcontainer)
        rw [List.contains_iff_mem, h.mem_idsIn_iff howner, hl, ← h.mem_idsIn_iff he] at hc
        simpa using hc
  globalId_eq := fun e he => h.globalId_eq e (List.mem_of_mem_filter he)
  package_eq := fun e he other hother =>
    h.package_eq e (List.mem_of_mem_filter he) other (List.mem_of_mem_filter hother)
  container_mem := by
    intro e he c hc
    rw [h.entries_withoutLocation] at he ⊢
    obtain ⟨hmem, hl⟩ := List.mem_filter.mp he
    obtain ⟨owner, howner, hid, hlocation⟩ := h.container_mem e hmem c hc
    refine ⟨owner, List.mem_filter.mpr ⟨howner, ?_⟩, hid, hlocation⟩
    rw [hlocation]
    exact hl

end Coherent

/-! ## Removing several locations -/

theorem idsIn_withoutLocation_of_ne (index : Index) {l other : Location} (h : other ≠ l) :
    (index.withoutLocation l).idsIn other = index.idsIn other := by
  unfold idsIn withoutLocation
  dsimp only
  rw [LocationMap.get?_erase_of_ne _ h]

theorem idsIn_withoutLocation_self (index : Index) (l : Location) :
    (index.withoutLocation l).idsIn l = [] := by
  unfold idsIn withoutLocation
  dsimp only
  rw [LocationMap.get?_erase_self, Option.getD_none]

/-- The entries of two locations leave all tables in any order. -/
theorem withoutLocation_comm (index : Index) (l m : Location) :
    (index.withoutLocation l).withoutLocation m =
      (index.withoutLocation m).withoutLocation l := by
  by_cases h : m = l
  · rw [h]
  · have hm := index.idsIn_withoutLocation_of_ne h
    have hl := index.idsIn_withoutLocation_of_ne (Ne.symm h)
    unfold withoutLocation at hm hl ⊢
    dsimp only at hm hl ⊢
    rw [hm, hl]
    congr 1
    · rw [List.filter_filter, List.filter_filter]
      exact List.filter_congr fun e _ => Bool.and_comm _ _
    · exact LocationMap.erase_comm _ l m
    · exact Groups.remove_comm _ _ _
    · rw [Groups.removeKeys_remove, Groups.removeKeys_remove, Groups.removeKeys_comm,
        Groups.remove_comm]

theorem withoutLocation_self (index : Index) (l : Location) :
    (index.withoutLocation l).withoutLocation l = index.withoutLocation l := by
  have hnone := index.idsIn_withoutLocation_self l
  have herased : (index.withoutLocation l).byLocation.erase l =
      (index.withoutLocation l).byLocation := LocationMap.erase_self _ l
  -- no identifier is left to be removed
  generalize index.withoutLocation l = next at hnone herased ⊢
  unfold withoutLocation
  dsimp only
  rw [hnone, herased, Groups.remove_nil, Groups.removeKeys_nil, Groups.remove_nil,
    List.filter_eq_self.mpr]
  exact fun _ _ => rfl

end Index
end ModelWorkspace
