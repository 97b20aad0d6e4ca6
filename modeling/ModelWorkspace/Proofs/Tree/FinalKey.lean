import ModelWorkspace.Proofs.Tree.Rules
import ModelWorkspace.Proofs.Tree.Soundness

/-!
# Tokens that end in a key

Tokens end in a key if a colon is the last of them, but for trivia and the ends of the blocks
that are open there.  Whoever reads a property up to its colon then finds the end of a block
where a value may stand, and no end of a line in front of it; so such tokens are never read
without a report (`errors_fileMembers_of_endsInKey`).

Without a report no rule takes that colon, unless it is the one that reads its property: values
hold no colon, and neither do blanks, line ends and the marks of layout (`LeavesKey`).
-/

namespace ModelWorkspace

namespace Language

theorem IsName.kind_ne_colon {name : List Symbol} (h : IsName name) :
    ∀ s ∈ name, s.kind ≠ .colon := by
  induction h with
  | ident => simp
  | dotted _ ih => simpa using ih

theorem IsScalar.kind_ne_colon {scalar : List Symbol} (h : IsScalar scalar) :
    ∀ s ∈ scalar, s.kind ≠ .colon := by
  cases h with
  | string | integer | decimal => simp
  | name hname => exact hname.kind_ne_colon

theorem IsElements.kind_ne_colon {elements : List Symbol} (h : IsElements elements) :
    ∀ s ∈ elements, s.kind ≠ .colon := by
  induction h with
  | none => simp
  | last hscalar => exact hscalar.kind_ne_colon
  | more hscalar _ _ ih =>
      intro s hs
      rcases List.mem_append.mp hs with hs | hs
      · exact hscalar.kind_ne_colon s hs
      · rcases List.mem_cons.mp hs with rfl | hs
        · exact SyntaxKind.noConfusion
        · exact ih s hs

theorem IsValue.kind_ne_colon {value : List Symbol} (h : IsValue value) :
    ∀ s ∈ value, s.kind ≠ .colon := by
  cases h with
  | scalar hscalar => exact hscalar.kind_ne_colon
  | list _ _ helements =>
      have helement := helements.kind_ne_colon
      simpa [or_imp, forall_and] using helement

end Language

namespace Grammar

open Nesting

variable {stop : Nat} {tokens left ts all : List Token} {t first : Token}

/-! ## The last token -/

/-- The last token, but for trivia and the ends of blocks, is a colon, and there is a block that
ends behind it. -/
def EndsInKey (tokens : List Token) : Prop :=
  ∃ front count,
    kinds tokens = front ++ .colon :: List.replicate (count + 1) .dedent

theorem not_endsInKey_nil : ¬ EndsInKey [] := by
  rintro ⟨front, count, h⟩
  exact List.append_ne_nil_of_right_ne_nil front (List.cons_ne_nil _ _) h.symm

/-- What stands in front does not matter. -/
theorem EndsInKey.cons (h : EndsInKey ts) (t : Token) : EndsInKey (t :: ts) := by
  obtain ⟨front, count, hfront⟩ := h
  cases ht : t.kind.isTrivia with
  | true => exact ⟨front, count, (kinds_trivia ht ts).trans hfront⟩
  | false => exact ⟨t.kind :: front, count, by rw [kinds_cons ht, hfront, List.cons_append]⟩

/-- A colon that the ends of blocks follow, and nothing else. -/
theorem endsInKey_colon {colon : Token} (hcolon : colon.kind = .colon)
    (hts : (trivia tokens).rest = t :: ts) (hends : ∀ kind ∈ kinds (t :: ts), kind = .dedent) :
    EndsInKey (colon :: tokens) := by
  have hkinds : kinds tokens = kinds (t :: ts) := by
    rw [← hts, ← Symbol.map_kind_ofTokens, ← Symbol.map_kind_ofTokens, ofTokens_trivia_rest]
  refine ⟨[], (kinds ts).length, ?_⟩
  rw [kinds_cons (by rw [hcolon]; rfl), hcolon, hkinds, List.nil_append]
  refine congrArg _ (List.eq_replicate_iff.mpr ⟨?_, hends⟩)
  rw [kinds_cons (isTrivia_of_rest hts), List.length_cons]

/-- If what a rule leaves ends in a key, so do the tokens that it was given. -/
theorem closed_endsInKey (stop : Nat) :
    Closed stop fun _ _ rest all => EndsInKey rest → EndsInKey all where
  start := fun _ => id
  leaf := fun h t hrest => (h hrest).cons t
  join := fun h hothers hleft => h (hothers hleft)
  node := fun h _ => h
  scalar := fun h _ _ => h
  report := fun h _ _ _ => h

theorem EndsInKey.of_trivia (h : EndsInKey (trivia tokens).rest) : EndsInKey tokens :=
  (closed_endsInKey 0).trivia tokens h

theorem EndsInKey.of_blank (h : EndsInKey (blank tokens).rest) : EndsInKey tokens :=
  (closed_endsInKey 0).blank tokens h

/-- The key stands behind all that holds no colon. -/
theorem EndsInKey.of_append (h : EndsInKey tokens) (before : List SyntaxKind)
    (hkinds : kinds tokens = before ++ kinds ts) (hbefore : .colon ∉ before) :
    EndsInKey ts := by
  obtain ⟨front, count, hfront⟩ := h
  rcases List.append_eq_append_iff.mp (hfront.symm.trans hkinds) with
    ⟨more, rfl, hmore⟩ | ⟨more, -, hmore⟩
  · cases more with
    | nil => exact ⟨[], count, hmore.symm⟩
    | cons kind more =>
        obtain ⟨rfl, -⟩ := List.cons.inj hmore
        exact absurd (List.mem_append_right _ List.mem_cons_self) hbefore
  · exact ⟨more, count, hmore⟩

theorem EndsInKey.tail (h : EndsInKey (t :: ts)) (ht : t.kind ≠ .colon) : EndsInKey ts := by
  cases htrivia : t.kind.isTrivia with
  | true => exact h.of_append [] (kinds_trivia htrivia ts) List.not_mem_nil
  | false =>
      refine h.of_append [t.kind] (kinds_cons htrivia ts) fun hmem => ?_
      exact ht (List.mem_singleton.mp hmem).symm

/-- Behind a colon there is another key, or the colon is the last one. -/
theorem EndsInKey.of_colon (h : EndsInKey (t :: ts)) (ht : t.kind = .colon) :
    EndsInKey ts ∨ ∃ count, kinds ts = List.replicate (count + 1) .dedent := by
  obtain ⟨front, count, hfront⟩ := h
  rw [kinds_cons (by rw [ht]; rfl)] at hfront
  cases front with
  | nil => exact .inr ⟨count, (List.cons.inj hfront).2⟩
  | cons kind front => exact .inl ⟨front, count, (List.cons.inj hfront).2⟩

/-! ## What leaves the key -/

/-- Unless something is reported, the key that the tokens end in is left. -/
def LeavesKey (all : List Token) {tokens : List Token} (r : Reading tokens) : Prop :=
  r.errors = [] → EndsInKey all → EndsInKey r.rest

theorem LeavesKey.append {r : Reading tokens} (h : LeavesKey all r) {next : Reading r.rest}
    (hnext : LeavesKey r.rest next) : LeavesKey all (r.append next) := by
  intro herrors hkey
  obtain ⟨hr, hbehind⟩ := List.append_eq_nil_iff.mp herrors
  exact hnext hbehind (h hr hkey)

theorem LeavesKey.followedBy {r : Reading tokens} (h : LeavesKey all r) (hrest : r.rest = left)
    {next : Reading left} (hnext : LeavesKey left next) :
    LeavesKey all (r.followedBy hrest next) := by
  subst hrest
  exact h.append hnext

theorem LeavesKey.withLeaf {r : Reading ts} (h : LeavesKey ts r) (ht : t.kind ≠ .colon) :
    LeavesKey (t :: ts) (r.withLeaf t) :=
  fun herrors hkey => h herrors (hkey.tail ht)

theorem leavesKey_nothing (tokens : List Token) : LeavesKey tokens (Reading.nothing tokens) :=
  fun _ hkey => hkey

theorem leavesKey_report (r : Reading tokens) (message : String) (range : TextRange) :
    LeavesKey all (r.report message range) :=
  fun herrors => absurd herrors (List.cons_ne_nil _ _)

theorem leavesKey_recoverLine (message : String) (tokens : List Token) :
    LeavesKey all (recoverLine stop message tokens) :=
  fun herrors => absurd herrors (errors_recoverLine_ne_nil stop message tokens)

theorem leavesKey_skip {passes : SyntaxKind → Bool} (hpasses : passes .colon = false)
    (tokens : List Token) : LeavesKey tokens (skip passes tokens) := by
  refine skip_induction (P := fun tokens r => LeavesKey tokens r) leavesKey_nothing ?_ tokens
  intro t ts r ht hr
  refine hr.withLeaf fun hcolon => ?_
  rw [hcolon, hpasses] at ht
  cases ht

theorem leavesKey_trivia (tokens : List Token) : LeavesKey tokens (trivia tokens) :=
  leavesKey_skip rfl tokens

theorem leavesKey_blank (tokens : List Token) : LeavesKey tokens (blank tokens) :=
  leavesKey_skip rfl tokens

theorem leavesKey_value (hfirst : beginsValue first.kind = true) :
    LeavesKey (first :: tokens) (value stop first tokens) := by
  intro herrors hkey
  obtain ⟨s, hs, hall⟩ := sound_value hfirst herrors
  refine hkey.of_append (s.map Symbol.kind) ?_ fun hmem => ?_
  · rw [← Symbol.map_kind_ofTokens, hall, List.map_append, Symbol.map_kind_ofTokens]
  · obtain ⟨symbol, hsymbol, hcolon⟩ := List.mem_map.mp hmem
    exact hs.kind_ne_colon symbol hsymbol hcolon

theorem leavesKey_valueEnd (tokens : List Token) :
    LeavesKey tokens (valueEnd stop .never tokens).toReading := by
  have hspace := leavesKey_trivia tokens
  cases hts : (trivia tokens).rest with
  | nil =>
      rw [valueEnd_nil hts]
      exact hspace
  | cons t ts =>
      rw [valueEnd_cons hts]
      split
      · rename_i ht
        exact hspace.followedBy hts ((leavesKey_nothing ts).withLeaf (by rw [ht]; decide))
      · split
        · exact hspace
        · split
          · exact hspace.followedBy hts (leavesKey_report _ _ _)
          · exact hspace.followedBy hts (leavesKey_recoverLine _ _)

/-- A value, and the end of its line. -/
theorem leavesKey_valueLine (hfirst : beginsValue first.kind = true) :
    LeavesKey (first :: tokens) ((value stop first tokens).append
      (valueEnd stop .never (value stop first tokens).rest).toReading) :=
  (leavesKey_value hfirst).append (leavesKey_valueEnd _)

/-! ## Properties and blocks -/

/-- On these tokens every rule leaves the key. -/
structure LeavesKeyAt (stop : Nat) (tokens : List Token) : Prop where
  propertyValue : ∀ {colon : Token}, colon.kind = .colon →
    LeavesKey (colon :: tokens) (propertyValue stop .never tokens).toReading
  property : ∀ key, LeavesKey tokens (property stop .never key tokens).toReading
  itemProperties : LeavesKey tokens (itemProperties stop .never tokens).toReading
  listItem : ∀ dash, LeavesKey tokens (listItem stop .never dash tokens).toReading
  members : LeavesKey tokens (members stop .never tokens).toReading

section Step

variable (ih : ∀ shorter, shorter.length < tokens.length → LeavesKeyAt stop shorter)

include ih

/-- Where the key is not the one that has just been read. -/
theorem LeavesKeyAt.laterKey :
    LeavesKey tokens (Grammar.propertyValue stop .never tokens).toReading := by
  have hspace := leavesKey_trivia tokens
  cases hts : (trivia tokens).rest with
  | nil =>
      rw [propertyValue_nil hts]
      exact hspace
  | cons t ts =>
      have hlt := length_lt_of_rest hts
      by_cases ht : t.kind = .newline
      · have hnewline : t.kind ≠ .colon := by rw [ht]; decide
        have hlines := leavesKey_blank ts
        rcases next_cases .indent (blank ts).rest with ⟨first, more, hmore, hfirst⟩ | hother
        · have hmoreLt := length_lt_of_rest hmore
          rw [propertyValue_block hts ht hmore hfirst]
          refine hspace.followedBy hts (LeavesKey.withLeaf ?_ hnewline)
          refine hlines.followedBy hmore fun herrors hkey => ?_
          exact (ih more (by omega)).members herrors (hkey.tail (by rw [hfirst]; decide))
        · rw [propertyValue_newline hts ht hother]
          exact hspace.followedBy hts (hlines.withLeaf hnewline)
      · rw [propertyValue_inline hts ht]
        split
        · rename_i hbegins
          exact hspace.followedBy hts (leavesKey_valueLine hbegins)
        · exact hspace.followedBy hts (leavesKey_recoverLine _ _)

theorem LeavesKeyAt.propertyValue_of {colon : Token} (hcolon : colon.kind = .colon) :
    LeavesKey (colon :: tokens) (Grammar.propertyValue stop .never tokens).toReading := by
  intro herrors hkey
  rcases hkey.of_colon hcolon with hkey | ⟨count, hcount⟩
  · exact LeavesKeyAt.laterKey ih herrors hkey
  · -- the end of a block stands where a value is looked for
    rw [← Symbol.map_kind_ofTokens] at hcount
    obtain ⟨s, behind, hsymbols, hs, -⟩ := List.map_eq_cons_iff.mp hcount
    obtain ⟨t, ts, hts, ht, -⟩ := exists_rest_of_ofTokens hsymbols
    have hdedent : t.kind = .dedent := ht.trans hs
    rw [propertyValue_inline hts (by rw [hdedent]; decide),
      if_neg (by rw [hdedent]; decide)] at herrors
    exact absurd (List.append_eq_nil_iff.mp herrors).2 (errors_recoverLine_ne_nil _ _ _)

theorem LeavesKeyAt.property_of (key : Token) :
    LeavesKey tokens (Grammar.property stop .never key tokens).toReading := by
  have hspace := leavesKey_trivia tokens
  cases hts : (trivia tokens).rest with
  | nil =>
      rw [property_other key hts (by simp)]
      exact hspace.followedBy hts (leavesKey_recoverLine _ _)
  | cons t ts =>
      by_cases ht : t.kind = .colon
      · rw [property_colon key hts ht]
        exact hspace.followedBy hts ((ih ts (length_lt_of_rest hts)).propertyValue ht)
      · rw [property_other key hts (head_ne_of_cons rfl ht)]
        exact hspace.followedBy hts (leavesKey_recoverLine _ _)

theorem LeavesKeyAt.properties_of (hlt : ts.length < tokens.length) (ht : t.kind = .ident) :
    LeavesKey (t :: ts) (properties stop t ts) := by
  have hle := (Grammar.property stop .never t ts).rest_length_le
  intro herrors hkey
  exact (((ih ts hlt).property t).append (ih _ (by omega)).itemProperties) herrors
    (hkey.tail (by rw [ht]; decide))

theorem LeavesKeyAt.itemProperties_of :
    LeavesKey tokens (Grammar.itemProperties stop .never tokens).toReading := by
  have hspace := leavesKey_blank tokens
  rcases next_cases .ident (blank tokens).rest with ⟨t, ts, hts, ht⟩ | hother
  · rw [itemProperties_ident hts ht]
    exact hspace.followedBy hts (LeavesKeyAt.properties_of ih (length_lt_of_rest hts) ht)
  · rw [itemProperties_other hother]
    exact hspace

theorem LeavesKeyAt.listItem_of (dash : Token) :
    LeavesKey tokens (Grammar.listItem stop .never dash tokens).toReading := by
  have hspace := leavesKey_trivia tokens
  cases hts : (trivia tokens).rest with
  | nil =>
      rw [listItem_nil dash hts]
      exact hspace
  | cons t ts =>
      have hlt := length_lt_of_rest hts
      rw [listItem_cons dash hts]
      refine hspace.followedBy hts ?_
      split
      · rename_i ht
        exact LeavesKeyAt.properties_of ih hlt ht.1
      · split
        · rename_i hbegins
          exact leavesKey_valueLine hbegins
        · split
          · exact leavesKey_report _ _ _
          · exact leavesKey_recoverLine _ _

end Step

/-- One member of a block. -/
theorem LeavesKeyAt.member (hat : LeavesKeyAt stop ts) :
    LeavesKey (t :: ts) (Grammar.member stop t ts) := by
  unfold Grammar.member
  split
  · rename_i ht
    exact fun herrors hkey => hat.property t herrors (hkey.tail (by rw [ht]; decide))
  · split
    · rename_i ht
      exact fun herrors hkey => hat.listItem t herrors (hkey.tail (by rw [ht]; decide))
    · split <;> exact leavesKey_report _ _ _

theorem LeavesKeyAt.members_of
    (ih : ∀ shorter, shorter.length < tokens.length → LeavesKeyAt stop shorter) :
    LeavesKey tokens (Grammar.members stop .never tokens).toReading := by
  have hspace := leavesKey_blank tokens
  cases hts : (blank tokens).rest with
  | nil =>
      rw [members_nil hts]
      exact hspace
  | cons t ts =>
      have hlt := length_lt_of_rest hts
      by_cases ht : t.kind = .dedent
      · rw [members_dedent hts ht]
        exact hspace.followedBy hts ((leavesKey_nothing ts).withLeaf (by rw [ht]; decide))
      · have hle := (Grammar.member stop t ts).rest_length_le
        rw [members_cons hts ht]
        exact hspace.followedBy hts
          ((ih ts hlt).member.append (ih _ (Nat.lt_of_le_of_lt hle hlt)).members)

theorem leavesKeyAt (stop : Nat) (tokens : List Token) : LeavesKeyAt stop tokens := by
  induction tokens using rules_induction with
  | step tokens ih =>
      exact ⟨LeavesKeyAt.propertyValue_of ih, LeavesKeyAt.property_of ih,
        LeavesKeyAt.itemProperties_of ih, LeavesKeyAt.listItem_of ih,
        LeavesKeyAt.members_of ih⟩

/-! ## Files -/

theorem leavesKey_fileMember (stop roots : Nat) (t : Token) (ts : List Token) :
    LeavesKey (t :: ts) (fileMember stop roots t ts) := by
  unfold fileMember
  split
  · rename_i ht
    split
    · exact leavesKey_report _ _ _
    · exact fun herrors hkey =>
        (leavesKeyAt stop ts).property t herrors (hkey.tail (by rw [ht]; decide))
  · split
    · exact leavesKey_report _ _ _
    · split
      · exact fun herrors => absurd herrors (List.cons_ne_nil _ _)
      · exact leavesKey_report _ _ _

theorem leavesKey_fileMembers (stop roots : Nat) (tokens : List Token) :
    LeavesKey tokens (fileMembers stop .never roots tokens).toReading := by
  induction tokens using rules_induction generalizing roots with
  | step tokens ih =>
      have hspace := leavesKey_blank tokens
      cases hts : (blank tokens).rest with
      | nil =>
          rw [fileMembers_nil roots hts]
          exact hspace
      | cons t ts =>
          have hlt := length_lt_of_rest hts
          have hle := (fileMember stop roots t ts).rest_length_le
          rw [fileMembers_cons roots hts]
          exact hspace.followedBy hts ((leavesKey_fileMember stop roots t ts).append
            (ih _ (Nat.lt_of_le_of_lt hle hlt) _))

/-- Tokens that end in a key are not read without a report. -/
theorem errors_fileMembers_of_endsInKey (stop roots : Nat) (h : EndsInKey tokens) :
    (fileMembers stop .never roots tokens).errors ≠ [] := by
  intro herrors
  have hleft := leavesKey_fileMembers stop roots tokens herrors h
  rw [(covers_fileMembers stop .never roots tokens).2] at hleft
  exact not_endsInKey_nil hleft

end Grammar
end ModelWorkspace
