import ModelWorkspace.Text.Location

/-!
# Maps from locations

A finite map whose keys are locations, listed in the order of the keys.  The
order is part of the type, so two maps with the same entries are equal, and every
walk over a map goes from the first location to the last.
-/

namespace ModelWorkspace

/-- A map from locations, as its entries in the order of the locations. -/
structure LocationMap (α : Type) where
  entries : List (Location × α)
  sorted : entries.Pairwise fun a b => a.1 < b.1
deriving Repr

namespace LocationMap

variable {α β : Type}

/-- The map without entries. -/
def empty : LocationMap α :=
  ⟨[], List.Pairwise.nil⟩

instance : Inhabited (LocationMap α) := ⟨empty⟩

/-- Puts a value under a key into a list of entries in order. -/
def insertEntry (key : Location) (value : α) :
    List (Location × α) → List (Location × α)
  | [] => [(key, value)]
  | entry :: entries =>
    if key < entry.1 then (key, value) :: entry :: entries
    else if key = entry.1 then (key, value) :: entries
    else entry :: insertEntry key value entries

theorem mem_keys_insertEntry {key : Location} {value : α} {entries : List (Location × α)}
    {entry : Location × α} (h : entry ∈ insertEntry key value entries) :
    entry = (key, value) ∨ entry ∈ entries := by
  induction entries with
  | nil => simpa [insertEntry] using h
  | cons first entries ih =>
    unfold insertEntry at h
    split at h
    · simpa using h
    split at h
    · rcases List.mem_cons.mp h with h | h
      · exact .inl h
      · exact .inr (List.mem_cons_of_mem _ h)
    · rcases List.mem_cons.mp h with h | h
      · exact .inr (h ▸ List.mem_cons_self)
      · exact (ih h).imp_right (List.mem_cons_of_mem _)

theorem sorted_insertEntry {key : Location} {value : α} {entries : List (Location × α)}
    (sorted : entries.Pairwise fun a b => a.1 < b.1) :
    (insertEntry key value entries).Pairwise fun a b => a.1 < b.1 := by
  induction entries with
  | nil => simp [insertEntry]
  | cons first entries ih =>
    obtain ⟨below, rest⟩ := List.pairwise_cons.mp sorted
    unfold insertEntry
    split
    · rename_i h
      refine List.pairwise_cons.mpr ⟨fun entry mem => ?_, sorted⟩
      rcases List.mem_cons.mp mem with mem | mem
      · exact mem ▸ h
      · exact Location.lt_trans h (below entry mem)
    split
    · rename_i h
      exact List.pairwise_cons.mpr ⟨fun entry mem => h ▸ below entry mem, rest⟩
    · rename_i h h'
      refine List.pairwise_cons.mpr ⟨fun entry mem => ?_, ih rest⟩
      rcases mem_keys_insertEntry mem with mem | mem
      · exact mem ▸ Location.lt_of_not_lt_of_ne h h'
      · exact below entry mem

/-- The map with a value under a key, in place of any earlier one. -/
def insert (m : LocationMap α) (key : Location) (value : α) : LocationMap α :=
  ⟨insertEntry key value m.entries, sorted_insertEntry m.sorted⟩

/-- The entries that pass a test. -/
def filter (m : LocationMap α) (p : Location → α → Bool) : LocationMap α :=
  ⟨m.entries.filter fun (key, value) => p key value, m.sorted.filter _⟩

/-- The map without the entry of a key. -/
def erase (m : LocationMap α) (key : Location) : LocationMap α :=
  m.filter fun other _ => other != key

/-- The map with every value replaced. -/
def map (m : LocationMap α) (f : Location → α → β) : LocationMap β :=
  ⟨m.entries.map fun (key, value) => (key, f key value),
    List.pairwise_map.mpr m.sorted⟩

/-- The value under a key. -/
def get? (m : LocationMap α) (key : Location) : Option α :=
  (m.entries.find? (·.1 == key)).map (·.2)

/-- Whether there is a value under a key. -/
def contains (m : LocationMap α) (key : Location) : Bool :=
  m.entries.any (·.1 == key)

/-- The keys in order. -/
def keys (m : LocationMap α) : List Location :=
  m.entries.map (·.1)

/-- The values in the order of their keys. -/
def values (m : LocationMap α) : List α :=
  m.entries.map (·.2)

/-- The number of entries. -/
def size (m : LocationMap α) : Nat :=
  m.entries.length

/-- Whether there are no entries. -/
def isEmpty (m : LocationMap α) : Bool :=
  m.entries.isEmpty

/-- Entries with every value replaced by one that need not exist. -/
def updateEntries {ε : Type} (f : α → Except ε β) :
    List (Location × α) → Except ε (List (Location × β))
  | [] => .ok []
  | (key, value) :: entries =>
    match f value with
    | .error e => .error e
    | .ok updated =>
      match updateEntries f entries with
      | .error e => .error e
      | .ok others => .ok ((key, updated) :: others)

theorem keys_updateEntries {ε : Type} {f : α → Except ε β} {entries : List (Location × α)}
    {updated : List (Location × β)} (h : updateEntries f entries = .ok updated) :
    updated.map (·.1) = entries.map (·.1) := by
  induction entries generalizing updated with
  | nil =>
    cases h
    rfl
  | cons entry entries ih =>
    unfold updateEntries at h
    split at h
    · cases h
    split at h
    · cases h
    · rename_i others rest
      cases h
      exact congrArg (entry.1 :: ·) (ih rest)

/-- The map with every value replaced by one that need not exist; the first error
in the order of the keys wins. -/
def updateAll {ε : Type} (m : LocationMap α) (f : α → Except ε β) :
    Except ε (LocationMap β) :=
  match h : updateEntries f m.entries with
  | .error e => .error e
  | .ok entries =>
    .ok ⟨entries, by
      have sorted : (m.entries.map (·.1)).Pairwise (· < ·) :=
        List.pairwise_map.mpr m.sorted
      rw [← keys_updateEntries h] at sorted
      exact List.pairwise_map.mp sorted⟩

/-- The deeper of two entries, the second one if they are equally deep. -/
def deeper (found : Option (Location × α)) (entry : Location × α) :
    Option (Location × α) :=
  match found with
  | none => some entry
  | some best => if best.1.depth ≤ entry.1.depth then some entry else found

/-- The entry with the deepest key among those whose keys pass a test. -/
def deepest? (m : LocationMap α) (p : Location → Bool) : Option (Location × α) :=
  (m.entries.filter fun entry => p entry.1).foldl deeper none

end LocationMap

/-- A finite set of locations, listed in order. -/
abbrev LocationSet := LocationMap Unit

namespace LocationSet

/-- The set with a location. -/
def add (s : LocationSet) (l : Location) : LocationSet :=
  s.insert l ()

/-- The set with all locations of a list. -/
def addAll (s : LocationSet) (ls : List Location) : LocationSet :=
  ls.foldl add s

/-- The set of the locations of a list. -/
def ofList (ls : List Location) : LocationSet :=
  addAll LocationMap.empty ls

/-- The locations in order. -/
def toList (s : LocationSet) : List Location :=
  s.keys

end LocationSet

end ModelWorkspace
