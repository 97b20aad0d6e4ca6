import ModelWorkspace.Text.Range

/-!
# Slices of a text

A text has a slice in a range if the range begins and ends between characters; the slice stands
behind what the bytes in front of the range spell (`TextRange.slice?_eq_some_iff`).
-/

namespace ModelWorkspace

variable {front others more behind : List Char}

/-- What takes as many bytes at the start of a text is the same. -/
theorem append_inj_of_byteWidth (h : front ++ others = more ++ behind)
    (hwidth : byteWidth front = byteWidth more) : front = more ∧ others = behind := by
  have hnone : ∀ {front rest : List Char}, byteWidth (front ++ rest) = byteWidth front →
      rest = [] := by
    intro front rest h
    rw [byteWidth_append] at h
    cases rest with
    | nil => rfl
    | cons c rest =>
        have hpos := c.utf8Size_pos
        rw [byteWidth_cons] at h
        omega
  rcases List.append_eq_append_iff.mp h with ⟨between, rfl, rfl⟩ | ⟨beyond, rfl, rfl⟩
  · obtain rfl := hnone hwidth.symm
    exact ⟨(List.append_nil _).symm, rfl⟩
  · obtain rfl := hnone hwidth
    exact ⟨List.append_nil _, rfl⟩

theorem takeBytes_append (front behind : List Char) :
    takeBytes (byteWidth front) (front ++ behind) = some front := by
  induction front with
  | nil => cases behind <;> rfl
  | cons c front ih =>
      have hpos := c.utf8Size_pos
      obtain ⟨width, hwidth⟩ : ∃ width, byteWidth (c :: front) = width + 1 :=
        ⟨_, (Nat.succ_pred_eq_of_pos (by rw [byteWidth_cons]; omega)).symm⟩
      rw [hwidth, List.cons_append, takeBytes]
      rw [byteWidth_cons] at hwidth
      rw [if_pos (by omega), ← hwidth, Nat.add_sub_cancel_left, ih]
      rfl

theorem takeBytes_eq_some_iff {offset : Nat} {cs : List Char} :
    takeBytes offset cs = some front ↔
      byteWidth front = offset ∧ ∃ behind, cs = front ++ behind := by
  constructor
  · intro h
    induction cs generalizing offset front with
    | nil =>
        cases offset with
        | zero =>
            cases h
            exact ⟨rfl, [], rfl⟩
        | succ offset => cases h
    | cons c cs ih =>
        cases offset with
        | zero =>
            cases h
            exact ⟨rfl, c :: cs, rfl⟩
        | succ offset =>
            rw [takeBytes] at h
            split at h
            · obtain ⟨front, htake, rfl⟩ := Option.map_eq_some_iff.mp h
              obtain ⟨hwidth, behind, rfl⟩ := ih htake
              refine ⟨?_, behind, rfl⟩
              rw [byteWidth_cons]
              omega
            · cases h
  · rintro ⟨rfl, behind, rfl⟩
    exact takeBytes_append front behind

namespace TextRange

/-- The characters of a text in a range, or `none` if an end of the range lies past the end of the
text or inside a character. -/
def slice? (range : TextRange) (text : String) : Option (List Char) := do
  let before ← takeBytes range.stop text.toList
  let skipped ← takeBytes range.start before
  return before.drop skipped.length

/-- A slice stands behind the bytes in front of its range. -/
theorem slice?_eq_some_iff {range : TextRange} {text : String} {cs : List Char} :
    range.slice? text = some cs ↔
      ∃ front behind, text.toList = front ++ (cs ++ behind) ∧ byteWidth front = range.start ∧
        range.start + byteWidth cs = range.stop := by
  unfold slice?
  simp only [Option.bind_eq_bind, Option.bind_eq_some_iff, Option.pure_def, Option.some.injEq,
    takeBytes_eq_some_iff]
  constructor
  · rintro ⟨_, ⟨hstop, behind, htext⟩, front, ⟨hstart, between, rfl⟩, hdrop⟩
    rw [List.drop_left] at hdrop
    subst hdrop
    rw [byteWidth_append, hstart] at hstop
    exact ⟨front, behind, by rw [htext, List.append_assoc], hstart, hstop⟩
  · rintro ⟨front, behind, htext, hstart, hstop⟩
    refine ⟨front ++ cs, ⟨?_, behind, by rw [htext, List.append_assoc]⟩, front,
      ⟨hstart, cs, rfl⟩, List.drop_left⟩
    rw [byteWidth_append, hstart, hstop]

end TextRange
end ModelWorkspace
