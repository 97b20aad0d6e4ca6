import Mathlib
import ModelWorkspace.Name.Global

/-!
# Global identifiers tell packages apart

The identifier of a package is not empty and has no dot in it.  A global identifier
therefore shows its package: it is what stands before the first dot, and that is so
for a bare package identifier too.  Within one package different names have different
global identifiers, so a free variant of a name is always found.
-/

namespace ModelWorkspace
namespace Name

/-- An identifier that the name in a manifest gives to a package. -/
def IsPackageId (id : String) : Prop :=
  ∃ name : String, name ≠ "" ∧ id = packageId name

namespace IsPackageId

variable {p q : String}

theorem ne_empty (hp : IsPackageId p) : p ≠ "" := by
  obtain ⟨name, hname, rfl⟩ := hp
  intro h
  have hchars : (packageId name).toList = [] := by rw [h]; rfl
  rw [packageId, String.toList_ofList, List.map_eq_nil_iff] at hchars
  exact hname (String.toList_eq_nil_iff.mp hchars)

theorem dot_notMem (hp : IsPackageId p) : '.' ∉ p.toList := by
  obtain ⟨name, -, rfl⟩ := hp
  rw [packageId, String.toList_ofList, List.mem_map]
  rintro ⟨c, -, hc⟩
  split at hc
  · rename_i hkept
    rw [hc] at hkept
    exact absurd hkept (by decide)
  · exact absurd hc (by decide)

end IsPackageId

/-! ## What stands before a character -/

theorem takeWhile_of_notMem {c : Char} {front : List Char} (h : c ∉ front) :
    front.takeWhile (· ≠ c) = front := by
  refine List.takeWhile_eq_self_iff.mpr fun d hd => decide_eq_true ?_
  rintro rfl
  exact h hd

theorem takeWhile_append_cons {c : Char} {front : List Char} (h : c ∉ front)
    (back : List Char) : (front ++ c :: back).takeWhile (· ≠ c) = front := by
  have hfront := List.takeWhile_eq_self_iff.mp (takeWhile_of_notMem h)
  rw [List.takeWhile_append_of_pos hfront]
  simp

/-- What stands before the first dot of a global identifier is the package. -/
theorem takeWhile_globalId {p : String} (hp : IsPackageId p) (name : String) :
    (globalId p name).toList.takeWhile (· ≠ '.') = p.toList := by
  unfold globalId
  rw [if_neg hp.ne_empty]
  split
  · exact takeWhile_of_notMem hp.dot_notMem
  · rw [String.toList_append, String.toList_append, List.append_assoc]
    exact takeWhile_append_cons hp.dot_notMem _

/-- Names of different packages never share a global identifier. -/
theorem package_eq_of_globalId_eq {p q a b : String} (hp : IsPackageId p) (hq : IsPackageId q)
    (h : globalId p a = globalId q b) : p = q := by
  rw [← String.toList_inj, ← takeWhile_globalId hp a, h, takeWhile_globalId hq b]

/-- In one package different names have different global identifiers. -/
theorem globalId_injective (p : String) : Function.Injective (globalId p) := by
  -- the bare identifier of the package is shorter than any identifier with a dot
  have hlonger : ∀ name : String, p ≠ p ++ "." ++ name := by
    intro name h
    have hlength := congrArg String.length h
    simp only [String.length_append] at hlength
    have : ".".length = 1 := rfl
    omega
  intro a b h
  unfold globalId at h
  by_cases hp : p = ""
  · rwa [if_pos hp, if_pos hp] at h
  · rw [if_neg hp, if_neg hp] at h
    by_cases ha : a = p
    · by_cases hb : b = p
      · rw [ha, hb]
      · rw [if_pos ha, if_neg hb] at h
        exact absurd h (hlonger b)
    · by_cases hb : b = p
      · rw [if_neg ha, if_pos hb] at h
        exact absurd h.symm (hlonger a)
      · rw [if_neg ha, if_neg hb] at h
        exact (String.append_right_inj _).mp h

/-! ## Free variants -/

/-- The candidates for a base are all different. -/
theorem candidate_injective (base : String) : Function.Injective (candidate base) := by
  have hlonger : ∀ n : Nat, base ≠ base ++ toString n := by
    intro n h
    have hlength := congrArg String.length h
    rw [String.length_append, Nat.toString_eq_repr] at hlength
    have := Nat.length_repr_pos (n := n)
    omega
  intro m n h
  match m, n with
  | 0, 0 => rfl
  | 0, n + 1 => exact absurd h (hlonger (n + 1))
  | m + 1, 0 => exact absurd h.symm (hlonger (m + 1))
  | m + 1, n + 1 =>
      have hrepr : toString (m + 1) = toString (n + 1) := (String.append_right_inj base).mp h
      rw [Nat.toString_eq_repr, Nat.toString_eq_repr] at hrepr
      exact Nat.repr_injective hrepr

/-- The search ends at a candidate whose key is free, because it looks at one more
candidate than there are taken keys. -/
theorem freshBy_notMem {key : String → String} (hkey : Function.Injective key)
    (taken : List String) (base : String) : key (freshBy key taken base) ∉ taken := by
  let keyOf := fun n => key (candidate base n)
  have hinjective : Function.Injective keyOf := hkey.comp (candidate_injective base)
  unfold freshBy freeNumber
  cases hfind : (List.range' 0 (taken.length + 1 - 0)).find? fun n =>
      !taken.contains (key (candidate base n)) with
  | some n =>
      have hfree := List.find?_some hfind
      simpa using hfree
  | none =>
      exfalso
      have hall : (List.range' 0 (taken.length + 1)).map keyOf ⊆ taken := by
        intro id hid
        obtain ⟨n, hn, rfl⟩ := List.mem_map.mp hid
        simpa using List.find?_eq_none.mp hfind n hn
      -- the keys are all different, and there are more of them than are taken
      have hnodup : ((List.range' 0 (taken.length + 1)).map keyOf).Nodup :=
        List.Nodup.map hinjective List.nodup_range'
      have hlength := (hnodup.subperm hall).length_le
      rw [List.length_map, List.length_range'] at hlength
      omega

/-- A name that was found stays the first that is free while only others are taken. -/
theorem freshBy_of_subset {key : String → String} (hkey : Function.Injective key)
    {taken more : List String} (hsub : taken ⊆ more) {base : String}
    (hfree : key (freshBy key taken base) ∉ more) :
    freshBy key more base = freshBy key taken base := by
  have hnumber : freeNumber key more base 0 = freeNumber key taken base 0 := by
    refine Nat.le_antisymm ?_ ?_
    · by_contra hlt
      exact hfree (mem_taken_of_lt_freeNumber key (Nat.zero_le _) (Nat.lt_of_not_le hlt))
    · by_contra hlt
      have hmem : key (candidate base (freeNumber key more base 0)) ∈ taken :=
        mem_taken_of_lt_freeNumber key (Nat.zero_le _) (Nat.lt_of_not_le hlt)
      exact freshBy_notMem hkey more base (hsub hmem)
  unfold freshBy
  rw [hnumber]

/-- What is found depends only on which keys are taken, not on how they are listed. -/
theorem freshBy_congr {key : String → String} (hkey : Function.Injective key)
    {taken others : List String} (h : ∀ id, id ∈ taken ↔ id ∈ others) (base : String) :
    freshBy key taken base = freshBy key others base :=
  (freshBy_of_subset hkey (fun id => (h id).mp)
    fun hmem => freshBy_notMem hkey taken base ((h _).mpr hmem)).symm

/-- A base whose key is free is kept. -/
theorem freshBy_eq_self {key : String → String} {taken : List String} {base : String}
    (h : key base ∉ taken) : freshBy key taken base = base := by
  have hnumber : freeNumber key taken base 0 = 0 := by
    by_contra hne
    exact h (mem_taken_of_lt_freeNumber key (Nat.le_refl 0) (Nat.pos_of_ne_zero hne))
  unfold freshBy
  rw [hnumber]
  rfl

end Name
end ModelWorkspace
