import Mathlib
import ModelWorkspace.Proofs.Text.Lines

/-!
# Offsets and positions are inverse to each other

The lines of a text, and where they start, are laid out one behind the other (`startsFrom`).  Each
offset up to the end of the text lies on just one line, at its end at the latest
(`exists_lineAt`, `LineAt.position_eq`), so the position of an offset tells it, and the places of
a text are the positions whose column the line has.

A column that the line does not have is no place, but an offset is found for it all the same:
columns are counted on into the lines behind, and behind the text, and where the numbers of 32
bits end, from the start of the text again.
-/

namespace ModelWorkspace

/-- A position that stands before another one: on an earlier line, or before it on its line. -/
def Position.Before (p q : Position) : Prop :=
  p.line < q.line ∨ p.line = q.line ∧ p.column < q.column

namespace LineIndex

/-! ## Bytes -/

/-- No character but a line end has the byte of a line end in it. -/
theorem eq_lineEnd_of_mem_utf8EncodeChar {c : Char} (h : 10 ∈ String.utf8EncodeChar c) :
    c = '\n' := by
  have hbyte : ∀ v : Nat, (10 : UInt8) = UInt8.ofNat v → v % 256 = 10 := by
    intro v hv
    have hnat := congrArg UInt8.toNat hv
    simpa using hnat.symm
  unfold String.utf8EncodeChar at h
  dsimp only at h
  split at h
  · have hnat := hbyte _ (List.mem_singleton.mp h)
    exact Char.ext (UInt32.toNat_inj.mp (show c.val.toNat = 10 by omega))
  -- the bytes of all other characters are greater than those of ASCII
  have hbig : ∀ v : Nat, 128 ≤ v % 256 → (10 : UInt8) ≠ UInt8.ofNat v := by
    intro v hv heq
    rw [hbyte v heq] at hv
    exact absurd hv (by decide)
  split at h
  · simp only [List.mem_cons, List.not_mem_nil, or_false] at h
    rcases h with h | h
    · exact absurd h (hbig _ (by omega))
    · exact absurd h (hbig _ (by omega))
  split at h
  · simp only [List.mem_cons, List.not_mem_nil, or_false] at h
    rcases h with h | h | h
    · exact absurd h (hbig _ (by omega))
    · exact absurd h (hbig _ (by omega))
    · exact absurd h (hbig _ (by omega))
  · simp only [List.mem_cons, List.not_mem_nil, or_false] at h
    rcases h with h | h | h | h
    · exact absurd h (hbig _ (by omega))
    · exact absurd h (hbig _ (by omega))
    · exact absurd h (hbig _ (by omega))
    · exact absurd h (hbig _ (by omega))

theorem bytes_eq (text : String) :
    text.toByteArray.data.toList = text.toList.flatMap String.utf8EncodeChar := by
  rw [← String.utf8Encode_toList, List.utf8Encode, List.data_toByteArray]

theorem length_flatMap_utf8EncodeChar (cs : List Char) :
    (cs.flatMap String.utf8EncodeChar).length = byteWidth cs := by
  induction cs with
  | nil => rfl
  | cons c cs ih =>
      rw [List.flatMap_cons, List.length_append, String.length_utf8EncodeChar, ih, byteWidth_cons]

theorem width_ofText (text : String) : (ofText text).width = text.utf8ByteSize := by
  show byteWidth text.toList = _
  rw [← length_flatMap_utf8EncodeChar, ← bytes_eq]
  rfl

theorem eq_or_mem_of_mem_startsAfter {offset start : Nat} {c : Char} {cs : List Char}
    (h : start ∈ startsAfter offset (c :: cs)) :
    start = offset + c.utf8Size ∨ start ∈ startsAfter (offset + c.utf8Size) cs := by
  rw [startsAfter] at h
  split at h
  · exact List.mem_cons.mp h
  · exact .inr h

theorem le_of_mem_startsAfter {offset start : Nat} {cs : List Char}
    (h : start ∈ startsAfter offset cs) : offset ≤ start := by
  induction cs generalizing offset with
  | nil => exact absurd h List.not_mem_nil
  | cons c cs ih =>
      rcases eq_or_mem_of_mem_startsAfter h with rfl | h
      · exact Nat.le_add_right offset _
      · exact Nat.le_trans (Nat.le_add_right offset _) (ih h)

/-- No line but the first one starts in front of the end of the first character. -/
theorem add_size_le_of_mem_startsAfter {offset start : Nat} {c : Char} {cs : List Char}
    (h : start ∈ startsAfter offset (c :: cs)) : offset + c.utf8Size ≤ start := by
  rcases eq_or_mem_of_mem_startsAfter h with rfl | h
  · exact Nat.le_refl _
  · exact le_of_mem_startsAfter h

/-- As many lines start behind the first one and up to an offset as there are line ends in front
of it. -/
theorem length_takeWhile_startsAfter (offset more : Nat) (cs : List Char) :
    ((startsAfter offset cs).takeWhile (· ≤ offset + more)).length =
      ((cs.flatMap String.utf8EncodeChar).take more).count 10 := by
  induction cs generalizing offset more with
  | nil => simp [startsAfter]
  | cons c cs ih =>
      rw [List.flatMap_cons, List.take_append, List.count_append, String.length_utf8EncodeChar]
      by_cases hle : c.utf8Size ≤ more
      · have hsum : offset + more = offset + c.utf8Size + (more - c.utf8Size) := by omega
        rw [← ih (offset + c.utf8Size), hsum, startsAfter,
          List.take_of_length_le (by rwa [String.length_utf8EncodeChar])]
        by_cases hend : c = '\n'
        · rw [if_pos hend, List.takeWhile_cons_of_pos (by simp), List.length_cons, hend, Nat.add_comm]
          rfl
        · rw [if_neg hend, List.count_eq_zero.mpr (mt eq_lineEnd_of_mem_utf8EncodeChar hend),
            Nat.zero_add]
      · -- no line starts in front of the end of the character
        have hnone : (startsAfter offset (c :: cs)).takeWhile (· ≤ offset + more) = [] := by
          refine List.takeWhile_eq_nil_iff.mpr fun hpos => ?_
          have hfirst := add_size_le_of_mem_startsAfter (List.getElem_mem hpos)
          have hmore : offset + more < offset + c.utf8Size := by omega
          exact mt of_decide_eq_true (Nat.not_le_of_lt (hmore.trans_le hfirst))
        have hzero : ((String.utf8EncodeChar c).take more).count 10 = 0 := by
          refine List.count_eq_zero.mpr fun hmem => ?_
          have hend := eq_lineEnd_of_mem_utf8EncodeChar (List.mem_of_mem_take hmem)
          have hmore : more = 0 := by
            subst hend
            exact Nat.lt_one_iff.mp (Nat.lt_of_not_le hle)
          rw [hmore] at hmem
          exact absurd hmem List.not_mem_nil
        rw [hnone, hzero, Nat.sub_eq_zero_of_le (Nat.le_of_not_le hle), List.take_zero]
        rfl

/-! ## Lines -/

/-- Where lines start that stand one behind the other, from an offset on. -/
def startsFrom : (offset : Nat) → List (List Char) → List Nat
  | _, [] => []
  | offset, line :: lines => offset :: startsFrom (offset + byteWidth line + 1) lines

theorem startsFrom_splitOn (offset : Nat) (cs : List Char) :
    startsFrom offset (cs.splitOn '\n') = offset :: startsAfter offset cs := by
  induction cs generalizing offset with
  | nil => rfl
  | cons c cs ih =>
      rw [List.splitOn_cons_eq_if_modifyHead, startsAfter]
      by_cases hend : c = '\n'
      · rw [if_pos (beq_iff_eq.mpr hend), if_pos hend, startsFrom, hend]
        exact congrArg (offset :: ·) (ih (offset + 1))
      · rw [if_neg (mt beq_iff_eq.mp hend), if_neg hend]
        obtain ⟨line, lines, hlines⟩ :=
          List.exists_cons_of_ne_nil (List.splitOn_ne_nil '\n' cs)
        have hrest := ih (offset + c.utf8Size)
        rw [hlines, startsFrom, List.cons.injEq] at hrest
        rw [hlines, List.modifyHead_cons, startsFrom, byteWidth_cons, ← Nat.add_assoc, hrest.2]

/-- A line of some lines that stand one behind the other from an offset on: its number, what is
on it, and where it starts. -/
structure LineAt (offset : Nat) (lines : List (List Char)) (number start : Nat)
    (line : List Char) : Prop where
  line_eq : lines[number]? = some line
  start_eq : (startsFrom offset lines)[number]? = some start

section

variable {offset place number start : Nat} {line first : List Char} {lines : List (List Char)}

theorem LineAt.head : LineAt offset (line :: lines) 0 offset line :=
  ⟨rfl, rfl⟩

theorem LineAt.cons (h : LineAt (offset + byteWidth first + 1) lines number start line) :
    LineAt offset (first :: lines) (number + 1) start line :=
  ⟨h.line_eq, h.start_eq⟩

/-- A line is the first one, or one of the others. -/
theorem lineAt_cons_iff : LineAt offset (first :: lines) number start line ↔
    (number = 0 ∧ start = offset ∧ line = first) ∨
      ∃ less, number = less + 1 ∧ LineAt (offset + byteWidth first + 1) lines less start line := by
  constructor
  · rintro ⟨hline, hstart⟩
    cases number with
    | zero => exact .inl ⟨rfl, (Option.some.inj hstart).symm, (Option.some.inj hline).symm⟩
    | succ less => exact .inr ⟨less, rfl, hline, hstart⟩
  · rintro (⟨rfl, rfl, rfl⟩ | ⟨less, rfl, h⟩)
    · exact .head
    · exact h.cons

theorem LineAt.le_start (h : LineAt offset lines number start line) : offset ≤ start := by
  induction lines generalizing offset number with
  | nil => exact nomatch h.line_eq
  | cons first lines ih =>
      rcases lineAt_cons_iff.mp h with ⟨-, rfl, -⟩ | ⟨less, -, hrest⟩
      · exact Nat.le_refl _
      · exact Nat.le_trans (by omega) (ih hrest)

theorem byteWidth_lines (hne : lines ≠ []) : byteWidth (['\n'].intercalate (first :: lines)) =
    byteWidth first + 1 + byteWidth (['\n'].intercalate lines) := by
  obtain ⟨second, lines, rfl⟩ := List.exists_cons_of_ne_nil hne
  rw [List.intercalate_cons_cons, byteWidth_append, byteWidth_append]
  rfl

/-- No line goes beyond the end of the text. -/
theorem LineAt.stop_le (h : LineAt offset lines number start line) :
    start + byteWidth line ≤ offset + byteWidth (['\n'].intercalate lines) := by
  induction lines generalizing offset number with
  | nil => exact nomatch h.line_eq
  | cons first lines ih =>
      by_cases hnil : lines = []
      · subst hnil
        rw [List.intercalate_singleton]
        rcases lineAt_cons_iff.mp h with ⟨-, rfl, rfl⟩ | ⟨less, -, hrest⟩
        · exact Nat.le_refl _
        · exact nomatch hrest.line_eq
      · rw [byteWidth_lines hnil]
        rcases lineAt_cons_iff.mp h with ⟨-, rfl, rfl⟩ | ⟨less, -, hrest⟩
        · omega
        · have hle := ih hrest
          omega

/-- Every place in the text is on a line, at its end at the latest. -/
theorem exists_lineAt (hne : lines ≠ []) (hle : offset ≤ place)
    (hstop : place ≤ offset + byteWidth (['\n'].intercalate lines)) :
    ∃ number start line, LineAt offset lines number start line ∧ start ≤ place ∧
      place ≤ start + byteWidth line := by
  induction lines generalizing offset with
  | nil => exact absurd rfl hne
  | cons first lines ih =>
      by_cases hfirst : place ≤ offset + byteWidth first
      · exact ⟨0, offset, first, .head, hle, hfirst⟩
      by_cases hnil : lines = []
      · subst hnil
        rw [List.intercalate_singleton] at hstop
        exact absurd hstop hfirst
      · rw [byteWidth_lines hnil] at hstop
        have hle : offset + byteWidth first + 1 ≤ place := by omega
        obtain ⟨number, start, line, hline, hplace⟩ := ih hnil hle (by omega)
        exact ⟨number + 1, start, line, hline.cons, hplace⟩

/-- The lines that start up to a place on a line are those up to this one. -/
theorem LineAt.length_takeWhile (h : LineAt offset lines number start line) (hle : start ≤ place)
    (hstop : place ≤ start + byteWidth line) :
    ((startsFrom offset lines).takeWhile (· ≤ place)).length = number + 1 := by
  induction lines generalizing offset number with
  | nil => exact nomatch h.line_eq
  | cons first lines ih =>
      have hfirst : offset ≤ place := Nat.le_trans h.le_start hle
      rw [startsFrom, List.takeWhile_cons_of_pos (by simpa using hfirst), List.length_cons]
      rcases lineAt_cons_iff.mp h with ⟨rfl, rfl, rfl⟩ | ⟨less, rfl, hrest⟩
      · cases lines with
        | nil => rfl
        | cons second lines =>
            rw [startsFrom, List.takeWhile_cons_of_neg]
            · rfl
            · simpa using hstop
      · rw [ih hrest]

end

/-! ## Positions of a text -/

section

variable {text : String} {place number start : Nat} {line : List Char}

theorem starts_ofText (text : String) :
    (ofText text).starts = startsFrom 0 (text.toList.splitOn '\n') :=
  (startsFrom_splitOn 0 text.toList).symm

theorem byteWidth_splitOn (text : String) :
    byteWidth (['\n'].intercalate (text.toList.splitOn '\n')) = text.utf8ByteSize := by
  rw [List.intercalate_splitOn, ← width_ofText]
  rfl

theorem LineAt.place_le (h : LineAt 0 (text.toList.splitOn '\n') number start line)
    (hstop : place ≤ start + byteWidth line) : place ≤ text.utf8ByteSize := by
  have hend := h.stop_le
  rw [byteWidth_splitOn, Nat.zero_add] at hend
  exact Nat.le_trans hstop hend

theorem LineAt.position_eq (h : LineAt 0 (text.toList.splitOn '\n') number start line)
    (hle : start ≤ place) (hstop : place ≤ start + byteWidth line) :
    (ofText text).position place = ⟨number, place - start⟩ := by
  have hmin : min place (ofText text).width = place := by
    rw [width_ofText]
    exact Nat.min_eq_left (h.place_le hstop)
  unfold position
  dsimp only
  rw [hmin, starts_ofText, h.length_takeWhile hle hstop, Nat.add_sub_cancel,
    List.getD_eq_getElem?_getD, h.start_eq]
  rfl

theorem capacity_eq (h : text.utf8ByteSize < 2 ^ 32) : (ofText text).capacity = 2 ^ 32 := by
  unfold capacity
  rw [width_ofText]
  exact Nat.max_eq_left h

/-- Offsets up to the end of the text are kept as they are. -/
theorem mod_capacity (h : place ≤ text.utf8ByteSize) :
    place % (ofText text).capacity = place := by
  refine Nat.mod_eq_of_lt (Nat.lt_of_lt_of_le (Nat.lt_succ_of_le h) ?_)
  rw [← width_ofText]
  exact Nat.le_max_right _ _

theorem LineAt.offset?_eq (h : LineAt 0 (text.toList.splitOn '\n') number start line)
    (column : Nat) :
    (ofText text).offset? ⟨number, column⟩ =
      some ((start + column) % (ofText text).capacity) := by
  unfold offset?
  rw [starts_ofText, h.start_eq]
  rfl

/-- Columns are counted from the start of their line, without asking where it ends. -/
theorem offset?_eq_mod (h : text.utf8ByteSize < 2 ^ 32) (number column : Nat) :
    (ofText text).offset? ⟨number, column⟩ =
      ((ofText text).offset? ⟨number, 0⟩).map fun start => (start + column) % 2 ^ 32 := by
  unfold offset?
  rw [capacity_eq h, Option.map_map]
  refine congrArg (Option.map · _) (funext fun start => ?_)
  exact (Nat.mod_add_mod start (2 ^ 32) column).symm

/-- Every offset up to the end of the text has a place on a line. -/
theorem exists_lineAt_position (h : place ≤ text.utf8ByteSize) :
    ∃ number start line, LineAt 0 (text.toList.splitOn '\n') number start line ∧ start ≤ place ∧
      place ≤ start + byteWidth line ∧ (ofText text).position place = ⟨number, place - start⟩ := by
  obtain ⟨number, start, line, hline, hle, hstop⟩ :=
    exists_lineAt (List.splitOn_ne_nil '\n' text.toList) (Nat.zero_le place)
      (by rwa [byteWidth_splitOn, Nat.zero_add])
  exact ⟨number, start, line, hline, hle, hstop, hline.position_eq hle hstop⟩

theorem line_position (h : place ≤ text.utf8ByteSize) :
    ((ofText text).position place).line =
      (text.toByteArray.data.toList.take place).count 10 := by
  have hmin : min place (ofText text).width = place := by
    rw [width_ofText]
    exact Nat.min_eq_left h
  have hcount := length_takeWhile_startsAfter 0 place text.toList
  rw [Nat.zero_add, ← bytes_eq] at hcount
  unfold position ofText
  dsimp only
  rw [show min place (byteWidth text.toList) = place from hmin,
    List.takeWhile_cons_of_pos (by simp), List.length_cons, hcount]
  rfl

theorem position_before {before : Nat} (hlt : before < place) (h : place ≤ text.utf8ByteSize) :
    ((ofText text).position before).Before ((ofText text).position place) := by
  have hbefore : before ≤ text.utf8ByteSize := Nat.le_trans hlt.le h
  have hlines : ((ofText text).position before).line ≤ ((ofText text).position place).line := by
    rw [line_position hbefore, line_position h]
    exact (List.take_sublist_take_left hlt.le).count_le 10
  rcases Nat.lt_or_eq_of_le hlines with hless | hsame
  · exact .inl hless
  · -- on one line, both columns are counted from the same start
    refine .inr ⟨hsame, ?_⟩
    obtain ⟨number, start, line, hline, hstart, -, hposition⟩ := exists_lineAt_position hbefore
    obtain ⟨other, first, _, hother, -, -, hplace⟩ := exists_lineAt_position h
    rw [hposition, hplace] at hsame ⊢
    obtain rfl : number = other := hsame
    obtain rfl : start = first := Option.some.inj (hline.start_eq.symm.trans hother.start_eq)
    show before - start < place - start
    omega

/-- The places of a text are the positions whose column the line has. -/
theorem position_eq_iff (text : String) (p : Position) (offset : Nat) :
    (offset ≤ text.utf8ByteSize ∧ (ofText text).position offset = p) ↔
      (ofText text).offset? p = some offset ∧
        ∃ line, (text.toList.splitOn '\n')[p.line]? = some line ∧ p.column ≤ byteWidth line := by
  constructor
  · rintro ⟨hle, rfl⟩
    obtain ⟨number, start, line, hline, hstart, hstop, hposition⟩ := exists_lineAt_position hle
    rw [hposition, hline.offset?_eq, Nat.add_sub_cancel' hstart, mod_capacity hle]
    exact ⟨rfl, line, hline.line_eq, Nat.sub_le_iff_le_add'.mpr hstop⟩
  · rintro ⟨hoffset, line, hline, hcolumn⟩
    obtain ⟨start, hstart, rfl⟩ := Option.map_eq_some_iff.mp hoffset
    rw [starts_ofText] at hstart
    have hat : LineAt 0 (text.toList.splitOn '\n') p.line start line := ⟨hline, hstart⟩
    have hstop : start + p.column ≤ start + byteWidth line := Nat.add_le_add_left hcolumn start
    have hle := hat.place_le hstop
    rw [mod_capacity hle]
    refine ⟨hle, ?_⟩
    rw [hat.position_eq (Nat.le_add_right start _) hstop, Nat.add_sub_cancel_left]

end

/-- **Offsets and places are inverse to each other.**  In every text whose offsets fit into 32 bits,
each offset up to its end has a position that leads back to it; later offsets have later
positions; and the line is the number of line ends in front of the offset.  A position is that of
an offset of the text if and only if this offset is found for it and its line has the column.
Whether the line has the column is not asked: the offset found is the sum of the line's start and
the column, modulo `2 ^ 32`. -/
theorem position_offset?_inverse (text : String) (h : text.utf8ByteSize < 2 ^ 32) :
    (∀ offset ≤ text.utf8ByteSize,
      (ofText text).offset? ((ofText text).position offset) = some offset ∧
      ((ofText text).position offset).line =
        (text.toByteArray.data.toList.take offset).count 10 ∧
      ∀ before < offset, ((ofText text).position before).Before ((ofText text).position offset)) ∧
    (∀ p offset, (offset ≤ text.utf8ByteSize ∧ (ofText text).position offset = p) ↔
      (ofText text).offset? p = some offset ∧
        ∃ line, (text.toList.splitOn '\n')[p.line]? = some line ∧ p.column ≤ byteWidth line) ∧
    ∀ number column, (ofText text).offset? ⟨number, column⟩ =
      ((ofText text).offset? ⟨number, 0⟩).map fun start => (start + column) % 2 ^ 32 := by
  refine ⟨fun offset hle => ⟨?_, line_position hle, fun before hlt => position_before hlt hle⟩,
    position_eq_iff text, offset?_eq_mod h⟩
  exact ((position_eq_iff text _ offset).mp ⟨hle, rfl⟩).1

theorem position_offset?_inverse_wide :
    "é\n日本\n".utf8ByteSize < 2 ^ 32 ∧ 7 ≤ "é\n日本\n".utf8ByteSize ∧ 3 < 7 ∧
      (ofText "é\n日本\n").offset? ((ofText "é\n日本\n").position 7) = some 7 ∧
      ((ofText "é\n日本\n").position 3).Before ((ofText "é\n日本\n").position 7) ∧
      (ofText "é\n日本\n").offset? ⟨1, 4294967293⟩ = some 0 := by
  have hshort : "é\n日本\n".utf8ByteSize < 2 ^ 32 := by decide +kernel
  have hle : 7 ≤ "é\n日本\n".utf8ByteSize := by decide +kernel
  obtain ⟨hinverse, -, hsum⟩ := position_offset?_inverse "é\n日本\n" hshort
  obtain ⟨hback, -, hbefore⟩ := hinverse 7 hle
  have hstart : (ofText "é\n日本\n").offset? ⟨1, 0⟩ = some 3 := by decide +kernel
  refine ⟨hshort, hle, by decide, hback, hbefore 3 (by decide), ?_⟩
  rw [hsum 1 4294967293, hstart]
  rfl

/-- An offset on a later line may be found for a column that the line does not have. -/
theorem column_behind_line_found :
    ¬ ∀ text : String, text.utf8ByteSize < 2 ^ 32 → ∀ (p : Position) (offset : Nat),
      (ofText text).offset? p = some offset ↔
        offset ≤ text.utf8ByteSize ∧ (ofText text).position offset = p := by
  intro h
  have hfound : (ofText "abc\ncd\n").offset? ⟨0, 4⟩ = some 4 := by decide +kernel
  have hplace := ((h "abc\ncd\n" (by decide +kernel) ⟨0, 4⟩ 4).mp hfound).2
  revert hplace
  decide +kernel

end LineIndex
end ModelWorkspace
