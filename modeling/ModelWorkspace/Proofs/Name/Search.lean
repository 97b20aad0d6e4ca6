import ModelWorkspace.Proofs.Name.Global

/-!
# The search for a free name ends at the first one

A search for a free name looks at the base, and then at the base with `1`, `2`, … behind it,
until it comes to a name that is not taken.  Nothing in it bounds the numbers.  It ends because
the names that it looks at are all different, and so are their global identifiers, even where
one of them is the bare identifier of the package: so they cannot all be taken.

`IsFirstFree` says what the search ends at and how soon, `fresh_isFirstFree` that this is the
name which is given to an element, and which is given to a root so that its global identifier
is free.
-/

namespace ModelWorkspace
namespace Name

/-- The search for a name from the candidate `start` on.  It makes a number of probes, all of
names that are taken but the last one, which is the name that it ends at. -/
inductive Search (IsTaken : String → Prop) (base : String) :
    (start probes : Nat) → (found : String) → Prop
  | free {start : Nat} (h : ¬ IsTaken (candidate base start)) :
      Search IsTaken base start 1 (candidate base start)
  | next {start probes : Nat} {found : String} (h : IsTaken (candidate base start))
      (rest : Search IsTaken base (start + 1) probes found) :
      Search IsTaken base start (probes + 1) found

namespace Search

variable {IsTaken : String → Prop} {base found other : String} {start probes count : Nat}

/-- A search ends behind candidates that are taken. -/
theorem of_taken (h : ∀ m < count, IsTaken (candidate base (start + m)))
    (hfree : ¬ IsTaken (candidate base (start + count))) :
    Search IsTaken base start (count + 1) (candidate base (start + count)) := by
  induction count generalizing start with
  | zero => exact .free hfree
  | succ count ih =>
      rw [show start + (count + 1) = start + 1 + count by omega] at hfree ⊢
      refine .next (h 0 (by omega)) (ih (fun m hm => ?_) hfree)
      rw [show start + 1 + m = start + (m + 1) by omega]
      exact h (m + 1) (by omega)

/-- A search ends in one way only. -/
theorem unique (h : Search IsTaken base start probes found)
    (hother : Search IsTaken base start count other) : count = probes ∧ other = found := by
  induction h generalizing count with
  | free hfree =>
      cases hother with
      | free _ => exact ⟨rfl, rfl⟩
      | next htaken _ => exact absurd htaken hfree
  | next htaken _ ih =>
      cases hother with
      | free hfree => exact absurd htaken hfree
      | next _ hrest =>
          obtain ⟨hcount, hfound⟩ := ih hrest
          exact ⟨by omega, hfound⟩

end Search

/-- The first name for a base whose key is not taken, and that it is soon found: the base
itself, or the base with the smallest number behind it that gives a free key.  The search ends
there and nowhere else, after one probe more than there are taken keys at the latest. -/
structure IsFirstFree (key : String → String) (taken : List String) (base name : String) :
    Prop where
  free : key name ∉ taken
  kept : key base ∉ taken → name = base
  numbered : key base ∈ taken → ∃ number, 1 ≤ number ∧ name = base ++ toString number ∧
    ∀ smaller, 1 ≤ smaller → smaller < number → key (base ++ toString smaller) ∈ taken
  ends : ∃ probes ≤ taken.toFinset.card + 1, ∀ count found,
    Search (fun name => key name ∈ taken) base 0 count found ↔ count = probes ∧ found = name

section

variable {key : String → String} {taken : List String} {base : String}

/-- The number of the first free candidate is not above the number of taken keys, whose keys
the candidates before it have. -/
theorem freeNumber_le_card (hkey : Function.Injective key) (taken : List String)
    (base : String) : freeNumber key taken base 0 ≤ taken.toFinset.card := by
  have hinjective : Function.Injective fun n => key (candidate base n) :=
    hkey.comp (candidate_injective base)
  have hsub : ((Finset.range (freeNumber key taken base 0)).image fun n =>
      key (candidate base n)) ⊆ taken.toFinset := by
    intro id hid
    obtain ⟨n, hn, rfl⟩ := Finset.mem_image.mp hid
    exact List.mem_toFinset.mpr
      (mem_taken_of_lt_freeNumber key (Nat.zero_le n) (Finset.mem_range.mp hn))
  have hcard := Finset.card_le_card hsub
  rwa [Finset.card_image_of_injective _ hinjective, Finset.card_range] at hcard

theorem isFirstFree_freshBy (hkey : Function.Injective key) (taken : List String)
    (base : String) : IsFirstFree key taken base (freshBy key taken base) := by
  have hfree := freshBy_notMem hkey taken base
  have hbefore : ∀ m < freeNumber key taken base 0, key (candidate base m) ∈ taken :=
    fun m hm => mem_taken_of_lt_freeNumber key (Nat.zero_le m) hm
  refine ⟨hfree, freshBy_eq_self, fun hbase => ?_, ?_⟩
  · have hpos : freeNumber key taken base 0 ≠ 0 := by
      intro hzero
      unfold freshBy at hfree
      rw [hzero] at hfree
      exact hfree hbase
    obtain ⟨number, hnumber⟩ := Nat.exists_eq_succ_of_ne_zero hpos
    refine ⟨number + 1, by omega, by unfold freshBy; rw [hnumber]; rfl, ?_⟩
    intro smaller hone hless
    obtain ⟨m, rfl⟩ := Nat.exists_eq_succ_of_ne_zero (Nat.ne_of_gt hone)
    exact hbefore (m + 1) (by omega)
  · have hcard := freeNumber_le_card hkey taken base
    have hsearch : Search (fun name => key name ∈ taken) base 0
        (freeNumber key taken base 0 + 1) (candidate base (0 + freeNumber key taken base 0)) := by
      refine Search.of_taken (fun m hm => ?_) ?_
      · rw [Nat.zero_add]
        exact hbefore m hm
      · rw [Nat.zero_add]
        exact hfree
    rw [Nat.zero_add] at hsearch
    refine ⟨freeNumber key taken base 0 + 1, by omega, fun count found => ⟨hsearch.unique, ?_⟩⟩
    rintro ⟨rfl, rfl⟩
    exact hsearch

end

/-- **Names are disambiguated by the first free suffix.**  Whatever names are taken, the name
that is given for a base is the base or the base with the smallest free number behind it, and
the search for it ends after one probe more than there are names at the latest.  The same holds
of the name of a root, which is free if its global identifier is, in any package: also if a
candidate is the identifier of the package itself, whose global identifier is not repeated. -/
theorem fresh_isFirstFree (taken : List String) (packageId base : String) :
    IsFirstFree id taken base (fresh taken base) ∧
      (freshGlobal taken packageId base).2 =
        globalId packageId (freshGlobal taken packageId base).1 ∧
      IsFirstFree (globalId packageId) taken base (freshGlobal taken packageId base).1 :=
  ⟨isFirstFree_freshBy Function.injective_id taken base, rfl,
    isFirstFree_freshBy (globalId_injective packageId) taken base⟩

/-- A gap is filled, and the candidate `sales1` is taken as the package itself. -/
example : fresh ["n", "n1", "n3", "n22"] "n" = "n2" ∧
    freshGlobal ["sales1.sales", "sales1"] "sales1" "sales" = ("sales2", "sales1.sales2") := by
  decide +kernel

end Name
end ModelWorkspace
