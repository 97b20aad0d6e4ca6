import ModelWorkspace.Text.Lines

/-!
# Positions and offsets

A position is found on the last line that starts at or before an offset, and remembers how far
behind that start the offset is; so it leads back to the offset, on whichever line it was found
(`LineIndex.offset?_position`).
-/

namespace ModelWorkspace
namespace LineIndex

/-- The last of the lines in front of an offset starts at or before it. -/
theorem getElem?_takeWhile_le {starts : List Nat} (h : starts.head? = some 0) (offset : Nat) :
    ∃ start, starts[(starts.takeWhile (· ≤ offset)).length - 1]? = some start ∧
      start ≤ offset := by
  obtain ⟨rest, rfl⟩ := List.head?_eq_some_iff.mp h
  have hnonempty : (0 :: rest).takeWhile (· ≤ offset) ≠ [] := by simp
  obtain ⟨front, start, hfront⟩ := List.eq_nil_or_concat _ |>.resolve_left hnonempty
  have hprefix := List.takeWhile_prefix (· ≤ offset) (l := 0 :: rest)
  have hstart : start ∈ (0 :: rest).takeWhile (· ≤ offset) := by
    rw [hfront]
    simp
  have hle := List.all_eq_true.mp List.all_takeWhile start hstart
  refine ⟨start, ?_, by simpa using hle⟩
  obtain ⟨behind, hbehind⟩ := hprefix
  rw [hfront] at hbehind ⊢
  rw [← hbehind]
  simp

/-- The position of an offset in the text leads back to it. -/
theorem offset?_position (text : String) {offset : Nat}
    (h : offset ≤ byteWidth text.toList) :
    (ofText text).offset? ((ofText text).position offset) = some offset := by
  have hfirst : (ofText text).starts.head? = some 0 := rfl
  obtain ⟨start, hstart, hle⟩ := getElem?_takeWhile_le hfirst offset
  have hmin : min offset (ofText text).width = offset := Nat.min_eq_left h
  have hfits : offset < (ofText text).capacity :=
    Nat.lt_of_lt_of_le (Nat.lt_succ_of_le h) (Nat.le_max_right _ _)
  unfold offset? position
  dsimp only
  rw [hmin, List.getD_eq_getElem?_getD, hstart, Option.map_some, Option.getD_some,
    Nat.add_sub_cancel' hle, Nat.mod_eq_of_lt hfits]

end LineIndex
end ModelWorkspace
