import Mathlib
import ModelWorkspace.Text.LocationMap

/-!
# What a map from locations holds

Every operation on a `LocationMap` is described by what `get?` says of its result.
The other views of a map, its keys, its values and `contains`, are described through
`get?` too, so nothing behind this module has to look at the list of entries.  A map
is determined by `get?`, because its entries are in order.
-/

namespace ModelWorkspace
namespace LocationMap

variable {α β : Type}

/-- A key occurs in at most one entry. -/
theorem entry_unique {m : LocationMap α} {a b : Location × α}
    (ha : a ∈ m.entries) (hb : b ∈ m.entries) (hkey : a.1 = b.1) : a = b := by
  have hne : ∀ {x y : Location × α}, x.1 < y.1 → x.1 ≠ y.1 := by
    intro x y hlt heq
    rw [heq] at hlt
    exact Location.lt_irrefl _ hlt
  refine List.Pairwise.forall_of_forall_of_flip (R := fun x y => x.1 = y.1 → x = y)
    (fun _ _ _ => rfl) ?_ ?_ ha hb hkey
  · exact m.sorted.imp fun hlt heq => absurd heq (hne hlt)
  · exact m.sorted.imp fun hlt heq => absurd heq.symm (hne hlt)

theorem get?_eq_some_iff {m : LocationMap α} {key : Location} {value : α} :
    m.get? key = some value ↔ (key, value) ∈ m.entries := by
  unfold get?
  constructor
  · intro h
    obtain ⟨entry, hfind, rfl⟩ := Option.map_eq_some_iff.mp h
    have hkey : entry.1 = key := by simpa using List.find?_some hfind
    rw [← hkey]
    exact List.mem_of_find?_eq_some hfind
  · intro h
    cases hfind : m.entries.find? (·.1 == key) with
    | none =>
        have := List.find?_eq_none.mp hfind (key, value) h
        simp at this
    | some entry =>
        have hkey : entry.1 = key := by simpa using List.find?_some hfind
        have hmem := List.mem_of_find?_eq_some hfind
        rw [entry_unique hmem h hkey]
        rfl

/-- Maps that answer alike are equal. -/
theorem ext_get? {m n : LocationMap α} (h : ∀ key, m.get? key = n.get? key) : m = n := by
  have hnodup : ∀ o : LocationMap α, o.entries.Nodup := by
    intro o
    refine o.sorted.imp fun {a b} hab heq => ?_
    rw [heq] at hab
    exact Location.lt_irrefl _ hab
  have hperm : m.entries.Perm n.entries := by
    rw [List.perm_ext_iff_of_nodup (hnodup m) (hnodup n)]
    rintro ⟨key, value⟩
    rw [← get?_eq_some_iff, ← get?_eq_some_iff, h]
  have hentries : m.entries = n.entries := by
    refine hperm.eq_of_pairwise (fun a b _ _ hab hba => ?_) m.sorted n.sorted
    exact absurd (Location.lt_trans hab hba) (Location.lt_irrefl _)
  obtain ⟨entries, sorted⟩ := m
  obtain ⟨others, sorted'⟩ := n
  cases hentries
  rfl

/-! ## Operations -/

theorem mem_insertEntry {key : Location} {value : α} {entries : List (Location × α)}
    (sorted : entries.Pairwise fun a b => a.1 < b.1) (entry : Location × α) :
    entry ∈ insertEntry key value entries ↔
      entry = (key, value) ∨ entry.1 ≠ key ∧ entry ∈ entries := by
  induction entries with
  | nil => simp [insertEntry]
  | cons first rest ih =>
      obtain ⟨habove, hrest⟩ := List.pairwise_cons.mp sorted
      unfold insertEntry
      by_cases hlt : key < first.1
      · -- everything behind `first` lies above `key` too, so no entry has this key
        have hother : ∀ e ∈ first :: rest, e.1 ≠ key := by
          intro e he heq
          have hle : first.1 < e.1 ∨ first = e := by
            rcases List.mem_cons.mp he with h | h
            · exact Or.inr h.symm
            · exact Or.inl (habove e h)
          rcases hle with h | h
          · exact Location.lt_irrefl _ (heq ▸ Location.lt_trans hlt h)
          · exact Location.lt_irrefl _ (heq ▸ h ▸ hlt)
        rw [if_pos hlt, List.mem_cons]
        exact or_congr_right ⟨fun h => ⟨hother entry h, h⟩, fun h => h.2⟩
      · rw [if_neg hlt]
        by_cases hkey : key = first.1
        · have hother : ∀ e ∈ rest, e.1 ≠ key := by
            intro e he heq
            exact Location.lt_irrefl _ (heq ▸ hkey ▸ habove e he)
          rw [if_pos hkey, List.mem_cons, List.mem_cons]
          refine or_congr_right ⟨fun h => ⟨hother entry h, Or.inr h⟩, fun h => ?_⟩
          rcases h.2 with rfl | hmem
          · exact absurd hkey.symm h.1
          · exact hmem
        · rw [if_neg hkey, List.mem_cons, ih hrest, List.mem_cons]
          constructor
          · rintro (rfl | rfl | ⟨hne, hmem⟩)
            · exact Or.inr ⟨fun h => hkey h.symm, Or.inl rfl⟩
            · exact Or.inl rfl
            · exact Or.inr ⟨hne, Or.inr hmem⟩
          · rintro (rfl | ⟨hne, rfl | hmem⟩)
            · exact Or.inr (Or.inl rfl)
            · exact Or.inl rfl
            · exact Or.inr (Or.inr ⟨hne, hmem⟩)

theorem get?_insert (m : LocationMap α) (key other : Location) (value : α) :
    (m.insert key value).get? other = if other = key then some value else m.get? other := by
  apply Option.ext
  intro v
  rw [get?_eq_some_iff]
  show (other, v) ∈ insertEntry key value m.entries ↔ _
  rw [mem_insertEntry m.sorted]
  by_cases h : other = key
  · simp [h, eq_comm]
  · simp [h, get?_eq_some_iff]

theorem get?_insert_self (m : LocationMap α) (key : Location) (value : α) :
    (m.insert key value).get? key = some value := by
  rw [get?_insert, if_pos rfl]

theorem get?_insert_of_ne (m : LocationMap α) {key other : Location} (value : α)
    (h : other ≠ key) : (m.insert key value).get? other = m.get? other := by
  rw [get?_insert, if_neg h]

/-- What an insertion leads to is what was inserted, or was there under another key. -/
theorem get?_insert_eq_some_iff {m : LocationMap α} {key other : Location} {value v : α} :
    (m.insert key value).get? other = some v ↔
      (other = key ∧ v = value) ∨ (other ≠ key ∧ m.get? other = some v) := by
  rw [get?_insert]
  by_cases h : other = key
  · simp [h, eq_comm]
  · simp [h]

theorem get?_filter (m : LocationMap α) (p : Location → α → Bool) (key : Location) :
    (m.filter p).get? key = (m.get? key).filter (p key) := by
  apply Option.ext
  intro v
  rw [get?_eq_some_iff, Option.filter_eq_some_iff, get?_eq_some_iff]
  exact List.mem_filter

theorem get?_erase (m : LocationMap α) (key other : Location) :
    (m.erase key).get? other = if other = key then none else m.get? other := by
  unfold erase
  rw [get?_filter]
  cases m.get? other with
  | none => simp
  | some v =>
      by_cases h : other = key
      · simp [Option.filter, h]
      · simp [Option.filter, h]

/-- What is left behind an erasure was there under another key. -/
theorem get?_erase_self (m : LocationMap α) (key : Location) : (m.erase key).get? key = none := by
  rw [get?_erase, if_pos rfl]

theorem get?_erase_eq_some_iff {m : LocationMap α} {key other : Location} {v : α} :
    (m.erase key).get? other = some v ↔ other ≠ key ∧ m.get? other = some v := by
  rw [get?_erase]
  by_cases h : other = key
  · simp [h]
  · simp [h]

theorem get?_erase_of_ne (m : LocationMap α) {key other : Location} (h : other ≠ key) :
    (m.erase key).get? other = m.get? other := by
  rw [get?_erase, if_neg h]

theorem get?_map (m : LocationMap α) (f : Location → α → β) (key : Location) :
    (m.map f).get? key = (m.get? key).map (f key) := by
  apply Option.ext
  intro v
  rw [get?_eq_some_iff, Option.map_eq_some_iff]
  constructor
  · intro h
    obtain ⟨entry, hmem, heq⟩ := List.mem_map.mp h
    cases heq
    exact ⟨entry.2, get?_eq_some_iff.mpr hmem, rfl⟩
  · rintro ⟨w, hget, rfl⟩
    exact List.mem_map.mpr ⟨(key, w), get?_eq_some_iff.mp hget, rfl⟩

theorem erase_comm (m : LocationMap α) (a b : Location) :
    (m.erase a).erase b = (m.erase b).erase a := by
  refine ext_get? fun key => ?_
  rw [get?_erase, get?_erase, get?_erase, get?_erase]
  split <;> split <;> rfl

theorem erase_self (m : LocationMap α) (a : Location) : (m.erase a).erase a = m.erase a := by
  refine ext_get? fun key => ?_
  rw [get?_erase, get?_erase]
  split <;> rfl

/-- Replacing every value by one that exists is a plain replacement. -/
theorem updateAll_eq_map {ε : Type} (m : LocationMap α) (f : α → Except ε β) (g : α → β)
    (h : ∀ key value, m.get? key = some value → f value = .ok (g value)) :
    m.updateAll f = .ok (m.map fun _ => g) := by
  have hentries : ∀ entries : List (Location × α), (∀ entry ∈ entries, f entry.2 = .ok (g entry.2)) →
      updateEntries f entries = .ok (entries.map fun entry => (entry.1, g entry.2)) := by
    intro entries
    induction entries with
    | nil => intro _; rfl
    | cons first rest ih =>
        intro hall
        unfold updateEntries
        rw [hall first List.mem_cons_self, ih fun e he => hall e (List.mem_cons_of_mem _ he)]
        rfl
  have hupdate := hentries m.entries fun entry he => h entry.1 entry.2 (get?_eq_some_iff.mpr he)
  unfold updateAll
  split
  · rename_i e heq
    rw [hupdate] at heq
    cases heq
  · rename_i entries heq
    rw [hupdate] at heq
    cases heq
    rfl

/-! ## Other views -/

theorem contains_eq_isSome (m : LocationMap α) (key : Location) :
    m.contains key = (m.get? key).isSome := by
  unfold contains get?
  rw [Option.isSome_map, Bool.eq_iff_iff, List.any_eq_true, List.find?_isSome]

theorem contains_erase_of_ne (m : LocationMap α) {key other : Location} (h : other ≠ key) :
    (m.erase key).contains other = m.contains other := by
  rw [contains_eq_isSome, contains_eq_isSome, get?_erase_of_ne m h]

theorem contains_erase_self (m : LocationMap α) (key : Location) :
    (m.erase key).contains key = false := by
  rw [contains_eq_isSome, get?_erase_self]
  rfl

theorem mem_keys_iff {m : LocationMap α} {key : Location} :
    key ∈ m.keys ↔ ∃ value, m.get? key = some value := by
  unfold keys
  rw [List.mem_map]
  constructor
  · rintro ⟨entry, hmem, rfl⟩
    exact ⟨entry.2, get?_eq_some_iff.mpr hmem⟩
  · rintro ⟨value, hget⟩
    exact ⟨(key, value), get?_eq_some_iff.mp hget, rfl⟩

theorem nodup_keys (m : LocationMap α) : m.keys.Nodup := by
  refine List.pairwise_map.mpr (m.sorted.imp fun {a b} hab heq => ?_)
  rw [heq] at hab
  exact Location.lt_irrefl _ hab

theorem mem_values_iff {m : LocationMap α} {value : α} :
    value ∈ m.values ↔ ∃ key, m.get? key = some value := by
  unfold values
  rw [List.mem_map]
  constructor
  · rintro ⟨entry, hmem, rfl⟩
    exact ⟨entry.1, get?_eq_some_iff.mpr hmem⟩
  · rintro ⟨key, hget⟩
    exact ⟨(key, value), get?_eq_some_iff.mp hget, rfl⟩

/-- The values of a map stand in the order of their keys. -/
theorem pairwise_values {m : LocationMap α} {key : α → Location}
    (hkey : ∀ l v, m.get? l = some v → key v = l) :
    m.values.Pairwise fun a b => key a < key b := by
  unfold values
  rw [List.pairwise_map]
  refine m.sorted.imp_of_mem fun {a b} ha hb hlt => ?_
  rw [hkey a.1 a.2 (get?_eq_some_iff.mpr ha), hkey b.1 b.2 (get?_eq_some_iff.mpr hb)]
  exact hlt

/-! ## The deepest entry -/

theorem foldl_deeper (found : Option (Location × α)) (entries : List (Location × α)) :
    (entries = [] ∧ entries.foldl deeper found = found) ∨
      ∃ entry, entries.foldl deeper found = some entry ∧
        (entry ∈ entries ∨ found = some entry) := by
  induction entries generalizing found with
  | nil => exact Or.inl ⟨rfl, rfl⟩
  | cons first rest ih =>
      right
      have hdeeper : ∃ entry, deeper found first = some entry ∧
          (entry = first ∨ found = some entry) := by
        unfold deeper
        cases found with
        | none => exact ⟨first, rfl, Or.inl rfl⟩
        | some best =>
            by_cases h : best.1.depth ≤ first.1.depth
            · exact ⟨first, if_pos h, Or.inl rfl⟩
            · exact ⟨best, if_neg h, Or.inr rfl⟩
      obtain ⟨entry, hentry, hfrom⟩ := hdeeper
      rw [List.foldl_cons, hentry]
      rcases ih (some entry) with ⟨-, hsame⟩ | ⟨later, hlater, hmem⟩
      · refine ⟨entry, hsame, hfrom.imp_left ?_⟩
        rintro rfl
        exact List.mem_cons_self
      · refine ⟨later, hlater, ?_⟩
        rcases hmem with hmem | heq
        · exact Or.inl (List.mem_cons_of_mem _ hmem)
        · cases heq
          refine hfrom.imp_left ?_
          rintro rfl
          exact List.mem_cons_self

theorem get?_of_deepest? {m : LocationMap α} {p : Location → Bool} {entry : Location × α}
    (h : m.deepest? p = some entry) : m.get? entry.1 = some entry.2 ∧ p entry.1 = true := by
  have hmem : entry ∈ m.entries.filter fun e => p e.1 := by
    unfold deepest? at h
    rcases foldl_deeper none (m.entries.filter fun e => p e.1) with ⟨-, hnone⟩ | ⟨e, he, hmem⟩
    · rw [hnone] at h
      cases h
    · rw [he] at h
      cases h
      exact hmem.resolve_right (fun heq => nomatch heq)
  rw [List.mem_filter] at hmem
  exact ⟨get?_eq_some_iff.mpr hmem.1, hmem.2⟩

theorem deepest?_isSome_iff {m : LocationMap α} {p : Location → Bool} :
    (m.deepest? p).isSome = true ↔ ∃ key value, m.get? key = some value ∧ p key = true := by
  constructor
  · intro h
    obtain ⟨entry, hentry⟩ := Option.isSome_iff_exists.mp h
    exact ⟨entry.1, entry.2, get?_of_deepest? hentry⟩
  · rintro ⟨key, value, hget, hp⟩
    have hmem : (key, value) ∈ m.entries.filter fun e => p e.1 :=
      List.mem_filter.mpr ⟨get?_eq_some_iff.mp hget, hp⟩
    unfold deepest?
    rcases foldl_deeper none (m.entries.filter fun e => p e.1) with ⟨hnil, -⟩ | ⟨e, he, -⟩
    · rw [hnil] at hmem
      exact absurd hmem List.not_mem_nil
    · rw [he]
      rfl

end LocationMap

namespace LocationSet

theorem mem_toList_add {s : LocationSet} {l other : Location} :
    other ∈ (s.add l).toList ↔ other = l ∨ other ∈ s.toList := by
  unfold toList add
  rw [LocationMap.mem_keys_iff, LocationMap.mem_keys_iff, LocationMap.get?_insert]
  by_cases h : other = l
  · simp [h]
  · simp [h]

theorem mem_toList_addAll {s : LocationSet} {ls : List Location} {l : Location} :
    l ∈ (s.addAll ls).toList ↔ l ∈ ls ∨ l ∈ s.toList := by
  unfold addAll
  induction ls generalizing s with
  | nil => simp
  | cons first rest ih =>
      rw [List.foldl_cons, ih, mem_toList_add, List.mem_cons]
      tauto

theorem mem_toList_ofList {ls : List Location} {l : Location} :
    l ∈ (ofList ls).toList ↔ l ∈ ls := by
  unfold ofList
  rw [mem_toList_addAll]
  simp [toList, LocationMap.keys, LocationMap.empty]

/-- Sets with the same members are equal. -/
theorem ext_toList {s t : LocationSet} (h : ∀ l, l ∈ s.toList ↔ l ∈ t.toList) :
    s = t := by
  refine LocationMap.ext_get? fun key => Option.ext fun value => ?_
  have hkey := h key
  unfold toList at hkey
  rw [LocationMap.mem_keys_iff, LocationMap.mem_keys_iff] at hkey
  exact ⟨fun hs => (hkey.mp ⟨value, hs⟩).elim fun _ ht => ht,
    fun ht => (hkey.mpr ⟨value, ht⟩).elim fun _ hs => hs⟩

theorem add_comm (s : LocationSet) (l m : Location) : (s.add l).add m = (s.add m).add l := by
  refine ext_toList fun other => ?_
  simp only [mem_toList_add]
  exact or_left_comm

theorem add_self (s : LocationSet) (l : Location) : (s.add l).add l = s.add l := by
  refine ext_toList fun other => ?_
  simp only [mem_toList_add]
  exact or_self_left

end LocationSet
end ModelWorkspace
