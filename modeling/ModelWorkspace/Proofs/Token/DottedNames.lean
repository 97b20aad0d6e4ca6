import ModelWorkspace.Proofs.Token.CutShort

/-!
# Dotted names

A dotted name is scanned as one name after the other, with the dots between them
(`IsDottedName.scan`).  Where a part of it has been typed, a name that is put in behind this part
makes it a dotted name again (`IsDottedName.put`), which may stand where the whole name does
(`IsDottedName.replaces`).
-/

namespace ModelWorkspace

/-- A name: letters, digits and underscores, the first of which is no digit. -/
def IsSegment (cs : List Char) : Prop :=
  ∃ c more, cs = c :: more ∧ Scan.isNameStart c = true ∧ ∀ d ∈ more, Scan.isNamePart d = true

/-- Names with a dot between each two of them. -/
inductive IsDottedName : List Char → Prop
  | name {segment : List Char} (h : IsSegment segment) : IsDottedName segment
  | dotted {segment rest : List Char} (h : IsSegment segment) (behind : IsDottedName rest) :
      IsDottedName (segment ++ '.' :: rest)

/-- What may stand behind the first segment of a dotted name. -/
inductive IsNameTail : List Token → Prop
  | nil : IsNameTail []
  | cons {dot ident : Token} {ts : List Token} (separator : dot.kind = .dot)
      (segment : ident.kind = .ident) (behind : IsNameTail ts) : IsNameTail (dot :: ident :: ts)

open Scan

theorem IsSegment.beginsName {cs : List Char} (h : IsSegment cs) : BeginsName cs := by
  obtain ⟨c, more, rfl, hc, -⟩ := h
  exact ⟨c, more, rfl, hc⟩

theorem IsSegment.isNamePart {cs : List Char} (h : IsSegment cs) :
    ∀ c ∈ cs, isNamePart c = true := by
  obtain ⟨c, more, rfl, hc, hmore⟩ := h
  exact List.forall_mem_cons.mpr ⟨isNamePart_of_isNameStart hc, hmore⟩

/-- The characters of names are ASCII. -/
theorem utf8Size_of_isNamePart {c : Char} (h : isNamePart c = true) : c.utf8Size = 1 := by
  refine Char.utf8Size_eq_one_iff.mpr (UInt32.le_iff_toNat_le.mpr ?_)
  simp only [isNamePart, Char.isAlphanum, Char.isAlpha, Char.isUpper, Char.isLower, Char.isDigit,
    Bool.or_eq_true, Bool.and_eq_true, decide_eq_true_eq, beq_iff_eq, UInt32.le_iff_toNat_le,
    ge_iff_le] at h
  rcases h with ((h | h) | h) | rfl
  · exact Nat.le_trans h.2 (by decide)
  · exact Nat.le_trans h.2 (by decide)
  · exact Nat.le_trans h.2 (by decide)
  · decide

/-- An exponent without a sign begins with a digit. -/
theorem exponentLength_unsigned {mark d : Char} (hsign : ¬(d = '+' ∨ d = '-')) (cs : List Char) :
    exponentLength (mark :: d :: cs) = 0 ↔ ¬(mark = 'e' ∨ mark = 'E') ∨ d.isDigit = false := by
  simp only [exponentLength, if_neg hsign, List.drop_zero]
  by_cases hdigit : d.isDigit = true
  · have hpos : runLength Char.isDigit (d :: cs) ≠ 0 := by simp [runLength, hdigit]
    rw [if_neg hpos]
    split <;> simp_all
  · simp [runLength, hdigit]

namespace IsDottedName

variable {cs typed post name : List Char}

theorem beginsName (h : IsDottedName cs) : BeginsName cs := by
  cases h with
  | name h => exact h.beginsName
  | dotted h =>
      obtain ⟨c, more, rfl, hc, -⟩ := h
      exact ⟨c, _, rfl, hc⟩

theorem forall_mem (h : IsDottedName cs) : ∀ c ∈ cs, isNamePart c = true ∨ c = '.' := by
  induction h with
  | name h => exact fun c hc => .inl (h.isNamePart c hc)
  | dotted h _ ih =>
      exact List.forall_mem_append.mpr ⟨fun c hc => .inl (h.isNamePart c hc),
        List.forall_mem_cons.mpr ⟨.inr rfl, ih⟩⟩

theorem utf8Size (h : IsDottedName cs) : ∀ c ∈ cs, c.utf8Size = 1 := by
  intro c hc
  rcases h.forall_mem c hc with hpart | rfl
  · exact utf8Size_of_isNamePart hpart
  · rfl

/-- A dotted name may be split behind any byte. -/
theorem exists_split (h : IsDottedName cs) {offset : Nat} (hoffset : offset ≤ byteWidth cs) :
    ∃ typed post, cs = typed ++ post ∧ byteWidth typed = offset := by
  have hwidth : ∀ {cs : List Char}, (∀ c ∈ cs, c.utf8Size = 1) → byteWidth cs = cs.length := by
    intro cs hcs
    induction cs with
    | nil => rfl
    | cons c cs ih =>
        obtain ⟨hc, hrest⟩ := List.forall_mem_cons.mp hcs
        rw [byteWidth_cons, hc, ih hrest, List.length_cons, Nat.add_comm]
  refine ⟨cs.take offset, cs.drop offset, (List.take_append_drop offset cs).symm, ?_⟩
  rw [hwidth h.utf8Size] at hoffset
  rw [hwidth fun c hc => h.utf8Size c (List.mem_of_mem_take hc), List.length_take,
    Nat.min_eq_left hoffset]

theorem notMem_newline (h : IsDottedName cs) : '\n' ∉ cs := by
  intro hmem
  rcases h.forall_mem _ hmem with hpart | hdot <;> exact absurd ‹_› (by decide)

/-- A part of a name with a name put in behind it. -/
theorem put_segment (h : IsSegment (typed ++ post)) (hname : IsSegment name) :
    IsSegment (typed ++ name) := by
  cases typed with
  | nil => exact hname
  | cons c typed =>
      obtain ⟨d, more, heq, hd, hmore⟩ := h
      obtain ⟨rfl, rfl⟩ := List.cons.inj heq
      exact ⟨c, typed ++ name, rfl, hd, List.forall_mem_append.mpr
        ⟨(List.forall_mem_append.mp hmore).1, hname.isNamePart⟩⟩

/-- A part of a dotted name with a name put in behind it. -/
theorem put (h : IsDottedName (typed ++ post)) (hname : IsSegment name) :
    IsDottedName (typed ++ name) := by
  generalize hcs : typed ++ post = cs at h
  induction h generalizing typed with
  | name h => exact .name (put_segment (hcs ▸ h) hname)
  | @dotted segment rest h behind ih =>
      rcases List.append_eq_append_iff.mp hcs with ⟨more, rfl, -⟩ | ⟨more, rfl, hmore⟩
      · exact .name (put_segment h hname)
      · cases more with
        | nil =>
            rw [List.append_nil]
            exact .name (@put_segment segment [] name (by rwa [List.append_nil]) hname)
        | cons c more =>
            obtain ⟨rfl, hrest⟩ := List.cons.inj hmore
            rw [List.append_assoc]
            exact .dotted h (ih hrest.symm)

/-- A name that is put in behind a part of a dotted name takes no exponent where the dotted name
takes none. -/
theorem replaces (h : IsDottedName (typed ++ post)) (hname : IsSegment name)
    (hexponent : exponentLength name = 0) (more : List Char) :
    Replaces (typed ++ name) (typed ++ post ++ more) := by
  obtain ⟨c, rest, hcs, hc⟩ := h.beginsName
  refine ⟨⟨c, rest ++ more, by rw [hcs]; rfl, hc⟩, (h.put hname).beginsName,
    fun hnone => ?_⟩
  cases typed with
  | nil => exact hexponent
  | cons mark typed =>
      rw [hname.beginsName.exponentLength (List.cons_ne_nil mark typed)]
      cases typed with
      | nil => simp [exponentLength, runLength]
      | cons d typed =>
          -- no sign is part of a dotted name, so an exponent would begin with a digit
          have hsign : ¬(d = '+' ∨ d = '-') := by
            rintro (rfl | rfl) <;>
              exact absurd (h.forall_mem _ (List.mem_cons_of_mem _ List.mem_cons_self)) (by decide)
          exact (exponentLength_unsigned hsign typed).mpr
            ((exponentLength_unsigned hsign (typed ++ post ++ more)).mp hnone)

/-- A dotted name at the end of a text. -/
theorem scan (h : IsDottedName cs) (offset : Nat) :
    ∃ first tail, Scan.scan offset cs = first :: tail ∧ first.kind = .ident ∧ IsNameTail tail := by
  have hsegment : ∀ {segment rest : List Char} (offset : Nat), IsSegment segment →
      (∀ c ∈ rest.head?, Scan.isNamePart c = false) → Scan.scan offset (segment ++ rest) =
        ⟨.ident, segment, offset⟩ :: Scan.scan (offset + byteWidth segment) rest := by
    rintro _ rest offset ⟨c, more, rfl, hc, hmore⟩ hrest
    have hlexeme : lexeme c (more ++ rest) = (.ident, more.length) := by
      rw [lexeme_of_isNameStart hc, Layout.runLength_append hrest, runLength,
        List.takeWhile_eq_self_iff.mpr hmore]
    rw [List.cons_append, scan_cons, hlexeme]
    dsimp only
    rw [List.take_left, List.drop_left]
    rfl
  induction h generalizing offset with
  | name h =>
      have hname := @hsegment _ [] offset h fun c hc => by cases hc
      rw [List.append_nil] at hname
      exact ⟨_, _, hname, rfl, by rw [Scan.scan]; exact .nil⟩
  | @dotted segment rest h behind ih =>
      have hname := @hsegment _ ('.' :: rest) offset h (by rintro _ ⟨⟩; decide)
      have hdot : lexeme '.' rest = (.dot, 0) := by
        have hdigits : runLength Char.isDigit rest = 0 :=
          behind.beginsName.runLength (fun _ => isDigit_of_isNameStart) []
        simp [lexeme, isBlank, isNameStart, fractionLength, hdigits]
      rw [scan_cons, hdot, List.take_zero, List.drop_zero] at hname
      dsimp only at hname
      obtain ⟨first, tail, hscan, hfirst, htail⟩ :=
        ih (offset + byteWidth segment + Token.width ⟨.dot, ['.'], offset + byteWidth segment⟩)
      rw [hscan] at hname
      exact ⟨_, _, hname, rfl, .cons rfl hfirst htail⟩

end IsDottedName
end ModelWorkspace
