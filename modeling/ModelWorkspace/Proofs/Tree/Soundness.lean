import ModelWorkspace.Proofs.Tree.Language
import ModelWorkspace.Proofs.Tree.Lossless
import ModelWorkspace.Proofs.Tree.Rules

/-!
# What is read without a report is in the language

Each rule is taken by itself: if its answer holds no report, the symbols that it took form
the construct that it reads.  Where a rule has more than one way to end, the layout tells
which of them it took: a value stands on a line, so the text cannot end behind it, and a
block is closed before the text ends.

The rules for properties and blocks call each other on shorter lists of tokens; `Sound`
holds what is known of all of them up to a length.
-/

namespace ModelWorkspace
namespace Grammar

open ModelWorkspace.Symbol ModelWorkspace.Language

variable {stop : Nat} {tokens ts : List Token} {t first : Token}

/-- Unless something is reported, what is taken of the tokens is of the given form. -/
def Sound (IsForm : List Symbol → Prop) (all : List Token) {tokens : List Token}
    (r : Reading tokens) : Prop :=
  r.errors = [] → ∃ s, IsForm s ∧ ofTokens all = s ++ ofTokens r.rest

/-! ## Values -/

theorem sound_nameTail (hfirst : first.kind = .ident) :
    Sound IsName (first :: tokens) (nameTail stop tokens) := by
  have htrivia : ∀ {t : Token}, t.kind = .ident → t.kind.isTrivia = false :=
    fun h => by rw [h]; rfl
  fun_induction nameTail stop tokens generalizing first with
  | case1 dot ident ts hdot hident ih =>
      intro herrors
      obtain ⟨name, hname, hall⟩ := ih hident herrors
      have hdotTrivia : dot.kind.isTrivia = false := by rw [hdot]; rfl
      refine ⟨_, .dotted hname, ?_⟩
      rw [ofTokens_cons (htrivia hfirst), ofTokens_cons hdotTrivia, hfirst, hdot, hall]
      simp [joins, hdotTrivia, htrivia hident]
  | case2 | case4 => exact fun herrors => absurd herrors (List.cons_ne_nil _ _)
  | case3 | case5 | case6 =>
      intro
      have hall := ofTokens_cons (htrivia hfirst)
      rw [hfirst] at hall
      exact ⟨_, .ident _, hall _⟩

theorem sound_scalar (hfirst : BeginsScalar first.kind) :
    Sound IsScalar (first :: tokens) (scalar stop first tokens) := by
  unfold scalar
  split
  · rename_i hident
    intro herrors
    obtain ⟨name, hname, hall⟩ := sound_nameTail hident herrors
    exact ⟨name, .name hname, hall⟩
  · rename_i hident
    intro
    obtain h | h | h | h := hfirst
    · exact ⟨_, .string _, by rw [ofTokens_cons (by rw [h]; rfl), h]; rfl⟩
    · exact ⟨_, .integer _, by rw [ofTokens_cons (by rw [h]; rfl), h]; rfl⟩
    · exact ⟨_, .decimal _, by rw [ofTokens_cons (by rw [h]; rfl), h]; rfl⟩
    · exact absurd h hident

theorem beginsValue_iff (kind : SyntaxKind) :
    beginsValue kind = true ↔ BeginsScalar kind ∨ kind = .leftBracket := by
  cases kind <;> simp [beginsValue, BeginsScalar]

theorem sound_listElement : Sound IsScalar (t :: ts) (listElement stop t ts) := by
  unfold listElement
  split
  · rename_i hbegins
    simp only [Bool.and_eq_true, bne_iff_ne, beginsValue_iff] at hbegins
    exact sound_scalar (hbegins.1.resolve_right hbegins.2)
  · exact fun herrors => absurd herrors (List.cons_ne_nil _ _)

theorem sound_listElements : Sound IsElements tokens (listElements stop tokens) := by
  fun_induction listElements stop tokens with
  | case1 | case2 => exact fun _ => ⟨[], .none, rfl⟩
  | case3 t ts _ element spaced h =>
      intro herrors
      obtain ⟨s, hs, hall⟩ := sound_listElement (List.append_eq_nil_iff.mp herrors).1
      refine ⟨s, .last hs, ?_⟩
      rw [hall, ← ofTokens_trivia_rest]
      rfl
  | case4 t ts _ element spaced comma more h hkind space _ ih =>
      intro herrors
      obtain ⟨hspaced, hothers⟩ := List.append_eq_nil_iff.mp herrors
      obtain ⟨s, hs, hall⟩ := sound_listElement (List.append_eq_nil_iff.mp hspaced).1
      obtain ⟨others, hothers, hbehind⟩ := ih (List.append_eq_nil_iff.mp hothers).2
      have hcomma : ofTokens element.rest = _ := ofTokens_of_rest h
      refine ⟨_, .more hs (joins more) hothers, ?_⟩
      rw [hall, hcomma, hkind, ← ofTokens_trivia_rest more, hbehind]
      simp
  | case5 t ts _ element spaced comma more h hkind =>
      intro herrors
      obtain ⟨s, hs, hall⟩ := sound_listElement (List.append_eq_nil_iff.mp herrors).1
      refine ⟨s, .last hs, ?_⟩
      rw [hall, ← ofTokens_trivia_rest]
      rfl

theorem sound_closingBracket :
    Sound (∃ j, · = [⟨.rightBracket, j⟩]) tokens (closingBracket stop tokens) := by
  unfold closingBracket
  split
  · exact fun herrors => absurd herrors (List.cons_ne_nil _ _)
  · rename_i t ts
    split
    · rename_i hkind
      refine fun _ => ⟨_, ⟨joins ts, rfl⟩, ?_⟩
      rw [ofTokens_cons (by rw [hkind]; rfl), hkind]
      rfl
    · exact fun herrors => absurd herrors (List.cons_ne_nil _ _)

theorem sound_value (hfirst : beginsValue first.kind = true) :
    Sound IsValue (first :: tokens) (value stop first tokens) := by
  unfold value
  split
  · rename_i hkind
    intro herrors
    obtain ⟨hfront, hbracket⟩ := List.append_eq_nil_iff.mp herrors
    obtain ⟨-, helements⟩ := List.append_eq_nil_iff.mp hfront
    obtain ⟨elements, helements, hall⟩ := sound_listElements helements
    obtain ⟨_, ⟨j, rfl⟩, hbehind⟩ := sound_closingBracket hbracket
    refine ⟨_, .list (joins tokens) j helements, ?_⟩
    rw [ofTokens_cons (by rw [hkind]; rfl), hkind, ← ofTokens_trivia_rest tokens, hall]
    have hrest : ofTokens (listElements stop (trivia tokens).rest).rest = _ := hbehind
    rw [hrest]
    simp only [List.cons_append, List.append_assoc]
    rfl
  · rename_i hkind
    intro herrors
    have hscalar := ((beginsValue_iff _).mp hfirst).resolve_right hkind
    obtain ⟨s, hs, hall⟩ := sound_scalar hscalar herrors
    exact ⟨s, .scalar hs, hall⟩

/-! ## Properties and blocks -/

/-- On symbols that are laid out, unless something is reported, what is taken of the tokens
is of the given form, and the reading is not called off. -/
def SoundWithin (front : Bool) (depth : Nat) (IsForm : List Symbol → Prop) (all : List Token)
    {tokens : List Token} (g : Guarded tokens) : Prop :=
  LaidOut front depth (ofTokens all) → g.errors = [] →
    (∃ s, IsForm s ∧ ofTokens all = s ++ ofTokens g.rest) ∧ g.signal = .never

/-- What stands behind the colon of a property. -/
def IsPropertyValue (s : List Symbol) : Prop :=
  ∀ i j, IsProperty (⟨.ident, i⟩ :: ⟨.colon, j⟩ :: s)

/-- The rules for properties and blocks are sound on lists shorter than a bound. -/
structure SoundBelow (stop bound : Nat) : Prop where
  valueEnd : ∀ depth tokens, tokens.length < bound →
    SoundWithin false depth (∃ k, · = [⟨.newline, k⟩]) tokens (valueEnd stop .never tokens)
  propertyValue : ∀ depth tokens, tokens.length < bound →
    SoundWithin false depth IsPropertyValue tokens (propertyValue stop .never tokens)
  property : ∀ front depth key tokens, tokens.length < bound → key.kind = .ident →
    SoundWithin front depth IsProperty (key :: tokens) (property stop .never key tokens)
  itemProperties : ∀ depth tokens, tokens.length < bound →
    SoundWithin true depth IsMembers tokens (itemProperties stop .never tokens)
  listItem : ∀ depth dash tokens, tokens.length < bound → dash.kind = .dash →
    SoundWithin true depth IsMembers (dash :: tokens) (listItem stop .never dash tokens)
  members : ∀ depth tokens, tokens.length < bound →
    SoundWithin true (depth + 1) (fun s => ∃ m j, IsMembers m ∧ s = m ++ [⟨.dedent, j⟩]) tokens
      (members stop .never tokens)

variable {front : Bool} {depth : Nat}

theorem sound_valueEnd :
    SoundWithin false depth (∃ k, · = [⟨.newline, k⟩]) tokens
      (valueEnd stop .never tokens) := by
  intro hlaid
  cases h : (trivia tokens).rest with
  | nil =>
      rw [ofTokens_of_rest_nil h] at hlaid
      exact absurd hlaid LaidOut.not_nil
  | cons t ts =>
      have hall := ofTokens_of_rest h
      rw [valueEnd_cons h]
      split
      · rename_i hkind
        intro
        rw [hkind] at hall
        exact ⟨⟨_, ⟨_, rfl⟩, hall⟩, rfl⟩
      · split
        · -- a mark of layout stands at the front of a line only
          rename_i hkind
          rw [hall, hkind] at hlaid
          exact absurd hlaid.1 Bool.false_ne_true
        · split <;> simp

/-- A value and the end of its line. -/
theorem sound_line (ih : SoundBelow stop tokens.length) (hts : ts.length < tokens.length)
    (hbegins : beginsValue t.kind = true) :
    SoundWithin front depth (fun s => ∃ v k, IsValue v ∧ s = v ++ [⟨.newline, k⟩]) (t :: ts)
      ((valueEnd stop .never (value stop t ts).rest).lift ((value stop t ts).append ·)) := by
  intro hlaid herrors
  have hrest := (value stop t ts).rest_length_le
  obtain ⟨hvalue, hend⟩ := List.append_eq_nil_iff.mp herrors
  obtain ⟨v, hv, hall⟩ := sound_value hbegins hvalue
  rw [hall] at hlaid
  obtain ⟨⟨_, ⟨k, rfl⟩, hbehind⟩, hsignal⟩ :=
    ih.valueEnd depth _ (by omega) (hv.laidOut hlaid) hend
  refine ⟨⟨_, ⟨v, k, hv, rfl⟩, ?_⟩, hsignal⟩
  rw [hall, hbehind, List.append_assoc]
  rfl

theorem sound_propertyValue (ih : SoundBelow stop tokens.length) :
    SoundWithin false depth IsPropertyValue tokens (propertyValue stop .never tokens) := by
  intro hlaid
  cases h : (trivia tokens).rest with
  | nil =>
      rw [ofTokens_of_rest_nil h] at hlaid
      exact absurd hlaid LaidOut.not_nil
  | cons t ts =>
      have hall := ofTokens_of_rest h
      have hts := length_lt_of_rest h
      by_cases hkind : t.kind = .newline
      · rw [hall, hkind] at hlaid
        rw [hkind] at hall
        have hfront := hlaid.of_newline
        have hblank := blank_eq_trivia hfront.not_newline
        rcases next_cases .indent (blank ts).rest with ⟨first, more, h', hindent⟩ | hother
        · rw [propertyValue_block h hkind h' hindent]
          intro herrors
          have hmore := length_lt_of_rest h'
          have hnested := ofTokens_of_rest (hblank ▸ h')
          rw [hindent] at hnested
          rw [hnested] at hfront
          obtain ⟨⟨_, ⟨m, j, hm, rfl⟩, hbehind⟩, hsignal⟩ :=
            ih.members depth more (by omega) hfront.of_indent (by simpa using herrors)
          have hblock := IsBlock.enclosed (joins more) j hm
          refine ⟨⟨_, fun i k => .nested i k (joins ts) hblock, ?_⟩, hsignal⟩
          rw [hall, hnested, hbehind]
          rfl
        · rw [propertyValue_newline h hkind hother]
          refine fun _ => ⟨⟨_, fun i j => .bare i j (joins ts), ?_⟩, rfl⟩
          rw [hall, ← ofTokens_trivia_rest ts, ← hblank]
          rfl
      · rw [propertyValue_inline h hkind]
        split
        · rename_i hbegins
          intro herrors
          have hfirst : ofTokens (t :: ts) = ofTokens tokens := by
            rw [← h, ofTokens_trivia_rest]
          rw [← hfirst] at hlaid ⊢
          obtain ⟨⟨_, ⟨v, k, hv, rfl⟩, hbehind⟩, hsignal⟩ :=
            sound_line ih hts hbegins hlaid (by simpa using herrors)
          exact ⟨⟨_, fun i j => .inline i j k hv, hbehind⟩, hsignal⟩
        · simp

theorem sound_property (ih : SoundBelow stop tokens.length) {key : Token}
    (hkey : key.kind = .ident) :
    SoundWithin front depth IsProperty (key :: tokens) (property stop .never key tokens) := by
  intro hlaid
  have hall := ofTokens_cons (show key.kind.isTrivia = false by rw [hkey]; rfl) tokens
  rw [hkey] at hall
  rw [hall] at hlaid
  have hbehind : LaidOut false depth (ofTokens tokens) := hlaid
  rcases next_cases .colon (trivia tokens).rest with ⟨colon, more, h, hkind⟩ | hother
  · rw [property_colon key h hkind]
    intro herrors
    have hcolon := ofTokens_of_rest h
    rw [hkind] at hcolon
    rw [hcolon] at hbehind
    have hvalue : LaidOut false depth (ofTokens more) := hbehind
    obtain ⟨⟨s, hs, hmore⟩, hsignal⟩ :=
      ih.propertyValue depth more (length_lt_of_rest h) hvalue (by simpa using herrors)
    refine ⟨⟨_, hs (joins tokens) (joins more), ?_⟩, hsignal⟩
    rw [hall, hcolon, hmore]
    rfl
  · rw [property_other key rfl hother]
    simp

/-- A property with the further properties of an item behind it. -/
theorem sound_properties (ih : SoundBelow stop tokens.length) (hts : ts.length < tokens.length)
    (hkind : t.kind = .ident) (hlaid : LaidOut front depth (ofTokens (t :: ts))) :
    Sound (fun s => ∃ p m, IsProperty p ∧ IsMembers m ∧ s = p ++ m) (t :: ts)
      (properties stop t ts) := by
  intro herrors
  have hrest := (property stop .never t ts).rest_length_le
  obtain ⟨hproperty, hothers⟩ := List.append_eq_nil_iff.mp herrors
  obtain ⟨⟨p, hp, hall⟩, -⟩ := ih.property front depth t ts hts hkind hlaid hproperty
  rw [hall] at hlaid
  obtain ⟨⟨m, hm, hbehind⟩, -⟩ :=
    ih.itemProperties depth _ (by omega) (hp.laidOut hlaid) hothers
  refine ⟨_, ⟨p, m, hp, hm, rfl⟩, ?_⟩
  rw [hall, hbehind, List.append_assoc]
  rfl

theorem sound_itemProperties (ih : SoundBelow stop tokens.length) :
    SoundWithin true depth IsMembers tokens (itemProperties stop .never tokens) := by
  intro hlaid herrors
  refine ⟨?_, signal_itemProperties stop tokens⟩
  have hblank := blank_eq_trivia hlaid.not_newline
  have hnone : ofTokens tokens = ofTokens (blank tokens).rest := by
    rw [hblank, ofTokens_trivia_rest]
  rcases next_cases .ident (blank tokens).rest with ⟨t, ts, h, hkind⟩ | hother
  · rw [itemProperties_ident h hkind] at herrors ⊢
    have hfirst : ofTokens tokens = ofTokens (t :: ts) := by rw [hnone, h]
    rw [hfirst] at hlaid ⊢
    obtain ⟨_, ⟨p, m, hp, hm, rfl⟩, hbehind⟩ :=
      sound_properties ih (length_lt_of_rest h) hkind hlaid (by simpa using herrors)
    exact ⟨_, .property hp hm, hbehind⟩
  · rw [itemProperties_other hother]
    exact ⟨[], .none, hnone⟩

theorem sound_listItem (ih : SoundBelow stop tokens.length) {dash : Token}
    (hdash : dash.kind = .dash) :
    SoundWithin true depth IsMembers (dash :: tokens) (listItem stop .never dash tokens) := by
  intro hlaid herrors
  refine ⟨?_, signal_listItem stop dash tokens⟩
  have hall := ofTokens_cons (show dash.kind.isTrivia = false by rw [hdash]; rfl) tokens
  rw [hdash] at hall
  rw [hall] at hlaid
  have hbehind : LaidOut false depth (ofTokens tokens) := hlaid
  cases h : (trivia tokens).rest with
  | nil =>
      rw [ofTokens_of_rest_nil h] at hbehind
      exact absurd hbehind LaidOut.not_nil
  | cons t ts =>
      have hts := length_lt_of_rest h
      have hfirst : ofTokens tokens = ofTokens (t :: ts) := by
        rw [← h, ofTokens_trivia_rest]
      rw [hfirst] at hbehind
      rw [hall, hfirst]
      rw [listItem_cons dash h] at herrors ⊢
      split at herrors
      · rename_i hkind
        rw [if_pos hkind]
        obtain ⟨_, ⟨p, m, hp, hm, rfl⟩, hmore⟩ :=
          sound_properties ih hts hkind.1 hbehind (by simpa using herrors)
        refine ⟨_, .itemProperty (joins tokens) hp hm, ?_⟩
        rw [hmore]
        rfl
      · rename_i hkey
        rw [if_neg hkey]
        split at herrors
        · rename_i hbegins
          rw [if_pos hbegins]
          obtain ⟨⟨_, ⟨v, k, hv, rfl⟩, hmore⟩, -⟩ :=
            sound_line ih hts hbegins hbehind (by simpa using herrors)
          refine ⟨_, .itemValue (joins tokens) k hv .none, ?_⟩
          rw [hmore]
          rfl
        · revert herrors
          split <;> simp

/-- A member of a block. -/
theorem sound_member (ih : SoundBelow stop tokens.length) (hts : ts.length < tokens.length)
    (hlaid : LaidOut true (depth + 1) (ofTokens (t :: ts))) :
    Sound IsMembers (t :: ts) (member stop t ts) := by
  unfold member
  split
  · rename_i hkind
    intro herrors
    obtain ⟨⟨p, hp, hbehind⟩, -⟩ := ih.property true _ t ts hts hkind hlaid herrors
    exact ⟨p, hp.isMembers, hbehind⟩
  · split
    · rename_i hkind
      exact fun herrors => (ih.listItem _ t ts hts hkind hlaid herrors).1
    · split <;> exact fun herrors => by simp at herrors

/-- One member of a block, and the block behind it. -/
theorem sound_membersBehind (ih : SoundBelow stop tokens.length)
    (hts : ts.length < tokens.length) (hlaid : LaidOut true (depth + 1) (ofTokens (t :: ts))) :
    Sound (fun s => ∃ m j, IsMembers m ∧ s = m ++ [⟨.dedent, j⟩]) (t :: ts)
      ((member stop t ts).append (members stop .never (member stop t ts).rest).toReading) := by
  intro herrors
  have hrest := (member stop t ts).rest_length_le
  obtain ⟨hmember, hothers⟩ := List.append_eq_nil_iff.mp herrors
  obtain ⟨s, hs, hall⟩ := sound_member ih hts hlaid hmember
  rw [hall] at hlaid
  obtain ⟨⟨_, ⟨m, j, hm, rfl⟩, hbehind⟩, -⟩ :=
    ih.members depth _ (by omega) (hs.laidOut hlaid) hothers
  refine ⟨_, ⟨s ++ m, j, hs.append hm, rfl⟩, ?_⟩
  rw [hall, hbehind, List.append_assoc, List.append_assoc, List.append_assoc]
  rfl

theorem sound_members (ih : SoundBelow stop tokens.length) :
    SoundWithin true (depth + 1) (fun s => ∃ m j, IsMembers m ∧ s = m ++ [⟨.dedent, j⟩]) tokens
      (members stop .never tokens) := by
  intro hlaid herrors
  refine ⟨?_, signal_members stop tokens⟩
  have hblank := blank_eq_trivia hlaid.not_newline
  cases h : (blank tokens).rest with
  | nil =>
      -- the text ends at the outermost depth only
      rw [ofTokens_of_rest_nil (hblank ▸ h)] at hlaid
      exact absurd hlaid.2 (Nat.succ_ne_zero depth)
  | cons t ts =>
      have hts := length_lt_of_rest h
      have hall : ofTokens tokens = ofTokens (t :: ts) := by
        rw [← h, hblank, ofTokens_trivia_rest]
      rw [hall] at hlaid ⊢
      by_cases hkind : t.kind = .dedent
      · rw [members_dedent h hkind]
        refine ⟨_, ⟨[], joins ts, .none, rfl⟩, ?_⟩
        rw [ofTokens_cons (by rw [hkind]; rfl), hkind]
        rfl
      · rw [members_cons h hkind] at herrors ⊢
        exact sound_membersBehind ih hts hlaid (by simpa using herrors)

theorem SoundBelow.mono {bound smaller : Nat} (h : SoundBelow stop bound)
    (hle : smaller ≤ bound) : SoundBelow stop smaller where
  valueEnd := fun depth tokens hlt => h.valueEnd depth tokens (by omega)
  propertyValue := fun depth tokens hlt => h.propertyValue depth tokens (by omega)
  property := fun front depth key tokens hlt => h.property front depth key tokens (by omega)
  itemProperties := fun depth tokens hlt => h.itemProperties depth tokens (by omega)
  listItem := fun depth dash tokens hlt => h.listItem depth dash tokens (by omega)
  members := fun depth tokens hlt => h.members depth tokens (by omega)

theorem soundBelow (stop bound : Nat) : SoundBelow stop bound := by
  induction bound with
  | zero => constructor <;> intros <;> contradiction
  | succ bound ih =>
      have hbelow : ∀ {tokens : List Token}, tokens.length < bound + 1 →
          SoundBelow stop tokens.length := fun hlt => ih.mono (by omega)
      exact
        { valueEnd := fun _ _ _ => sound_valueEnd
          propertyValue := fun _ _ hlt => sound_propertyValue (hbelow hlt)
          property := fun _ _ _ _ hlt hkey => sound_property (hbelow hlt) hkey
          itemProperties := fun _ _ hlt => sound_itemProperties (hbelow hlt)
          listItem := fun _ _ _ hlt hdash => sound_listItem (hbelow hlt) hdash
          members := fun _ _ hlt => sound_members (hbelow hlt) }

/-! ## Files -/

/-- The first property of a file is read like any other. -/
theorem errors_fileMembers_of_ident (h : (blank tokens).rest = t :: ts)
    (hkind : t.kind = .ident) :
    (fileMembers stop .never 0 tokens).errors =
      (property stop .never t ts).errors ++
        (fileMembers stop (property stop .never t ts).signal 1
          (property stop .never t ts).rest).errors := by
  have hmember : fileMember stop 0 t ts = (property stop .never t ts).toReading := by
    rw [fileMember, if_pos hkind, if_neg Nat.zero_ne_one]
  rw [fileMembers_cons 0 h, hmember, if_pos hkind, signal_property]
  simp

/-- All else that stands in a file is reported. -/
theorem errors_fileMembers_ne_nil {roots : Nat} (h : (blank tokens).rest = t :: ts)
    (hkind : t.kind ≠ .ident ∨ roots = 1) :
    (fileMembers stop .never roots tokens).errors ≠ [] := by
  have hmember : (fileMember stop roots t ts).errors ≠ [] := by
    unfold fileMember
    split
    · rename_i hident
      rw [if_pos (hkind.resolve_left (not_not_intro hident))]
      simp
    · split
      · simp
      · split <;> simp
  rw [fileMembers_cons roots h]
  simp [hmember]

theorem sound_fileMembers (hlaid : LaidOut true 0 (ofTokens tokens))
    (h : (fileMembers stop .never 0 tokens).errors = []) : IsFile (ofTokens tokens) := by
  have hblank := blank_eq_trivia hlaid.not_newline
  cases hrest : (blank tokens).rest with
  | nil => exact .inl (ofTokens_of_rest_nil (hblank ▸ hrest))
  | cons t ts =>
      have hall : ofTokens tokens = ofTokens (t :: ts) := by
        rw [← hrest, hblank, ofTokens_trivia_rest]
      rw [hall] at hlaid ⊢
      have hkind : t.kind = .ident := by
        by_contra hkind
        exact errors_fileMembers_ne_nil hrest (.inl hkind) h
      rw [errors_fileMembers_of_ident hrest hkind] at h
      obtain ⟨hproperty, hothers⟩ := List.append_eq_nil_iff.mp h
      have hts : ts.length < tokens.length := length_lt_of_rest hrest
      obtain ⟨⟨p, hp, hbehind⟩, hsignal⟩ :=
        (soundBelow stop tokens.length).property true 0 t ts hts hkind hlaid hproperty
      rw [hbehind] at hlaid ⊢
      rw [hsignal] at hothers
      -- nothing may stand behind the property
      cases hmore : (blank (property stop .never t ts).rest).rest with
      | nil =>
          have hblank' := blank_eq_trivia (hp.laidOut hlaid).not_newline
          rw [ofTokens_of_rest_nil (hblank' ▸ hmore), List.append_nil]
          exact .inr hp
      | cons u us => exact absurd hothers (errors_fileMembers_ne_nil hmore (.inr rfl))

end Grammar
end ModelWorkspace
