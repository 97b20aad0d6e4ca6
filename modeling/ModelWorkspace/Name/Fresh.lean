/-!
# Free names

A name that is taken is told apart by a number behind it, the smallest from `1`
on that gives a free name; numbers that became free are used again.  What has to
be free need not be the name itself but something made from it.
-/

namespace ModelWorkspace
namespace Name

/-- The names to try for a base: the base itself, and with a number behind it. -/
def candidate (base : String) : Nat → String
  | 0 => base
  | n + 1 => base ++ toString (n + 1)

/-- The number of the first candidate for `base`, from `start` on, whose key is not
taken.  One candidate more than there are taken keys is enough to find it. -/
def freeNumber (key : String → String) (taken : List String) (base : String)
    (start : Nat) : Nat :=
  ((List.range' start (taken.length + 1 - start)).find? fun n =>
    !taken.contains (key (candidate base n))).getD 0

/-- All candidates between `start` and the number that is found are taken. -/
theorem mem_taken_of_lt_freeNumber (key : String → String) {taken : List String}
    {base : String} {start m : Nat} (from_start : start ≤ m)
    (below : m < freeNumber key taken base start) : key (candidate base m) ∈ taken := by
  unfold freeNumber at below
  cases found : (List.range' start (taken.length + 1 - start)).find? fun n =>
      !taken.contains (key (candidate base n)) with
  | none =>
    rw [found] at below
    exact absurd below (Nat.not_lt_zero m)
  | some n =>
    rw [found, Option.getD_some] at below
    have passed := (List.find?_range'_eq_some.mp found).2.2 m from_start below
    simpa using passed

/-- A search may start behind candidates that are known to be taken. -/
theorem freeNumber_eq_of_taken (key : String → String) {taken : List String}
    {base : String} {start : Nat}
    (known : ∀ m < start, key (candidate base m) ∈ taken) :
    freeNumber key taken base start = freeNumber key taken base 0 := by
  let isFree := fun n => !taken.contains (key (candidate base n))
  have none_before : ∀ count ≤ start, (List.range' 0 count).find? isFree = none := by
    intro count le
    rw [List.find?_eq_none]
    intro m inside
    simp only [List.mem_range'_1, Nat.zero_add, Nat.zero_le, true_and] at inside
    simpa [isFree] using known m (Nat.lt_of_lt_of_le inside le)
  unfold freeNumber
  by_cases short : start ≤ taken.length + 1
  · have split : List.range' 0 (taken.length + 1 - 0) =
        List.range' 0 start ++ List.range' start (taken.length + 1 - start) := by
      have parts :=
        List.range'_append_1 (s := 0) (m := start) (n := taken.length + 1 - start)
      rw [Nat.zero_add, Nat.add_sub_cancel' short] at parts
      exact parts.symm
    rw [split, List.find?_append, none_before start (Nat.le_refl _), Option.none_or]
  · have empty : taken.length + 1 - start = 0 := by omega
    rw [empty, Nat.sub_zero, none_before (taken.length + 1) (by omega)]
    rfl

/-- The first candidate for `base` whose key is not taken. -/
def freshBy (key : String → String) (taken : List String) (base : String) : String :=
  candidate base (freeNumber key taken base 0)

/-- The first candidate for `base` that is not taken. -/
def fresh (taken : List String) (base : String) : String :=
  freshBy id taken base

end Name
end ModelWorkspace
