import ModelWorkspace.Proofs.Tree.Rules
import ModelWorkspace.Proofs.Tree.Soundness

/-!
# What is in the language is read without a report

The other direction: a rule that is given the symbols of its construct, with other symbols
behind, reports nothing and leaves the others.  A rule looks at the next symbol to tell
where its construct ends, so what stands behind must not go on with it: no dot behind a
name, and neither a line end nor a block behind a property.  In a list item the rule for its
properties goes on with the properties of the block; the two agree on the block's members in
the end.

With soundness this makes the parser accept exactly the language, on every text that ends in
a line end.
-/

namespace ModelWorkspace

open ModelWorkspace.Symbol ModelWorkspace.Language

/-- Nothing is reported, and the given symbols are left. -/
structure Reading.Leaves {tokens : List Token} (r : Reading tokens)
    (behind : List Symbol) : Prop where
  errors : r.errors = []
  rest : ofTokens r.rest = behind

/-- Nothing is reported, the given symbols are left, and the reading is not called off. -/
structure Guarded.Leaves {tokens : List Token} (g : Guarded tokens)
    (behind : List Symbol) : Prop where
  reading : g.toReading.Leaves behind
  signal : g.signal = .never

namespace Grammar

variable {stop : Nat} {tokens ts : List Token} {t first : Token} {behind : List Symbol}

/-! ## Values -/

/-- What stands behind a name does not go on with it. -/
def EndsName (behind : List Symbol) : Prop :=
  ∀ s ∈ behind.head?, s.kind ≠ .dot

theorem endsName_cons {s : Symbol} (h : s.kind ≠ .dot) : EndsName (s :: behind) := by
  intro first hfirst
  obtain rfl : s = first := by simpa using hfirst
  exact h

theorem nameTail_of_head (h : ∀ t ∈ tokens.head?, t.kind ≠ .dot) :
    nameTail stop tokens = .nothing tokens := by
  cases tokens with
  | nil => rfl
  | cons dot ts =>
      have hdot : dot.kind ≠ .dot := h dot rfl
      cases ts <;> rw [nameTail, if_neg hdot]

theorem complete_nameTail {name : List Symbol} (hname : IsName name)
    (hfirst : first.kind.isTrivia = false) (h : ofTokens (first :: tokens) = name ++ behind)
    (hends : EndsName behind) : (nameTail stop tokens).Leaves behind := by
  induction hname generalizing first tokens with
  | ident joined =>
      rw [ofTokens_cons hfirst] at h
      have hbehind : ofTokens tokens = behind := (List.cons.inj h).2
      rw [nameTail_of_head]
      · exact ⟨rfl, hbehind⟩
      · intro t ht hdot
        obtain ⟨ts, rfl⟩ := List.head?_eq_some_iff.mp ht
        rw [ofTokens_cons (by rw [hdot]; rfl)] at hbehind
        rw [← hbehind] at hends
        exact hends _ rfl hdot
  | @dotted name hname ih =>
      rw [ofTokens_cons hfirst] at h
      obtain ⟨hsymbol, hbehind⟩ := List.cons.inj h
      obtain ⟨dot, more, rfl, hdot⟩ := exists_cons_of_joins (congrArg Symbol.joined hsymbol)
      rw [ofTokens_cons hdot] at hbehind
      obtain ⟨hsymbol', hmore⟩ := List.cons.inj hbehind
      obtain ⟨ident, us, rfl, hident⟩ := exists_cons_of_joins (congrArg Symbol.joined hsymbol')
      have hdotKind : dot.kind = .dot := congrArg Symbol.kind hsymbol'
      have hidentKind : ident.kind = .ident := by
        obtain ⟨joined, rest, rfl⟩ := hname.head
        rw [ofTokens_cons hident] at hmore
        exact congrArg Symbol.kind (List.cons.inj hmore).1
      obtain ⟨herrors, hrest⟩ := ih hident hmore
      rw [nameTail, if_pos hdotKind, if_pos hidentKind]
      exact ⟨herrors, hrest⟩

theorem complete_scalar {s : List Symbol} (hs : IsScalar s)
    (hfirst : first.kind.isTrivia = false) (h : ofTokens (first :: tokens) = s ++ behind)
    (hends : EndsName behind) : (scalar stop first tokens).Leaves behind := by
  have halone : ∀ {kind joined}, kind ≠ .ident →
      ofTokens (first :: tokens) = [⟨kind, joined⟩] ++ behind →
      (scalar stop first tokens).Leaves behind := by
    intro kind joined hkind h
    rw [ofTokens_cons hfirst] at h
    obtain ⟨hsymbol, hbehind⟩ := List.cons.inj h
    have hfirstKind : first.kind = kind := congrArg Symbol.kind hsymbol
    rw [scalar, if_neg (hfirstKind ▸ hkind)]
    exact ⟨rfl, hbehind⟩
  cases hs with
  | string | integer | decimal => exact halone SyntaxKind.noConfusion h
  | name hname =>
      have htail : (nameTail stop tokens).Leaves behind :=
        complete_nameTail hname hfirst h hends
      have hkind : first.kind = .ident := by
        obtain ⟨joined, rest, rfl⟩ := hname.head
        rw [ofTokens_cons hfirst] at h
        exact congrArg Symbol.kind (List.cons.inj h).1
      rw [scalar, if_pos hkind]
      exact ⟨htail.errors, htail.rest⟩

theorem kind_of_ofTokens {s : Symbol} {rest : List Symbol} (ht : t.kind.isTrivia = false)
    (h : ofTokens (t :: ts) = s :: rest) : t.kind = s.kind := by
  rw [ofTokens_cons ht] at h
  exact congrArg Symbol.kind (List.cons.inj h).1

theorem beginsScalar_of_ofTokens {s : List Symbol} (hs : IsScalar s)
    (ht : t.kind.isTrivia = false) (h : ofTokens (t :: ts) = s ++ behind) :
    BeginsScalar t.kind := by
  obtain ⟨head, rest, rfl, hhead⟩ := hs.head
  rw [kind_of_ofTokens ht h]
  exact hhead

theorem complete_listElement {s : List Symbol} (hs : IsScalar s)
    (ht : t.kind.isTrivia = false) (h : ofTokens (t :: ts) = s ++ behind)
    (hends : EndsName behind) : (listElement stop t ts).Leaves behind := by
  have hkind := beginsScalar_of_ofTokens hs ht h
  have hbegins : (beginsValue t.kind && t.kind != .leftBracket) = true := by
    obtain hkind | hkind | hkind | hkind := hkind <;> rw [hkind] <;> rfl
  rw [listElement, if_pos hbegins]
  exact complete_scalar hs ht h hends

/-- Nothing is reported, and a closing bracket comes next. -/
structure EndsAtBracket {tokens : List Token} (r : Reading tokens)
    (behind : List Symbol) : Prop where
  errors : r.errors = []
  bracket : ∃ t ts, r.rest = t :: ts ∧ t.kind = .rightBracket ∧ ofTokens ts = behind

theorem isTrivia_of_head_rest (tokens : List Token) :
    ∀ t ∈ (trivia tokens).rest.head?, t.kind.isTrivia = false := by
  intro t ht
  obtain ⟨ts, hrest⟩ := List.head?_eq_some_iff.mp ht
  exact isTrivia_of_rest hrest

theorem not_bracket_of_beginsScalar {kind : SyntaxKind} (h : BeginsScalar kind) :
    ¬ (kind = .rightBracket ∨ kind = .newline) := by
  obtain rfl | rfl | rfl | rfl := h <;> simp

/-- What comes behind the first element of a list. -/
theorem exists_behind_spacedElement (stop : Nat) {s : List Symbol} (hs : IsScalar s)
    {next : Symbol} (hnext : next.kind ≠ .dot) (ht : t.kind.isTrivia = false)
    (h : ofTokens (t :: ts) = s ++ next :: behind) :
    (spacedElement stop t ts).errors = [] ∧
      ∃ u us, (spacedElement stop t ts).rest = u :: us ∧ u.kind = next.kind ∧
        ofTokens us = behind := by
  obtain ⟨herrors, hrest⟩ := complete_listElement hs ht h (endsName_cons hnext)
  exact ⟨by simp [spacedElement, herrors], exists_rest_of_ofTokens hrest⟩

theorem complete_listElements {elements : List Symbol} (helements : IsElements elements)
    {joined : Bool} (hhead : ∀ t ∈ tokens.head?, t.kind.isTrivia = false)
    (h : ofTokens tokens = elements ++ ⟨.rightBracket, joined⟩ :: behind) :
    EndsAtBracket (listElements stop tokens) behind := by
  induction helements generalizing tokens with
  | none =>
      cases tokens with
      | nil => cases h
      | cons t ts =>
          have ht : t.kind.isTrivia = false := hhead t rfl
          have hkind : t.kind = .rightBracket := kind_of_ofTokens ht h
          rw [ofTokens_cons ht] at h
          rw [listElements_stop (.inl hkind)]
          exact ⟨rfl, t, ts, rfl, hkind, (List.cons.inj h).2⟩
  | last hs =>
      cases tokens with
      | nil => simp [ofTokens] at h
      | cons t ts =>
          have ht : t.kind.isTrivia = false := hhead t rfl
          have hbegins := beginsScalar_of_ofTokens hs ht h
          obtain ⟨herrors, bracket, more, hrest, hkind, hmore⟩ :=
            exists_behind_spacedElement stop hs SyntaxKind.noConfusion ht h
          have hcomma : bracket.kind ≠ .comma := by
            rw [hkind]
            exact SyntaxKind.noConfusion
          rw [listElements_last (not_bracket_of_beginsScalar hbegins)
            (head_ne_of_cons hrest hcomma)]
          exact ⟨herrors, bracket, more, hrest, hkind, hmore⟩
  | more hs joined' hothers ih =>
      cases tokens with
      | nil => simp [ofTokens] at h
      | cons t ts =>
          have ht : t.kind.isTrivia = false := hhead t rfl
          rw [List.append_assoc] at h
          have hbegins := beginsScalar_of_ofTokens hs ht h
          obtain ⟨herrors, comma, more, hrest, hkind, hmore⟩ :=
            exists_behind_spacedElement stop hs SyntaxKind.noConfusion ht h
          rw [← ofTokens_trivia_rest] at hmore
          have hothers := ih (isTrivia_of_head_rest more) hmore
          rw [listElements_comma (not_bracket_of_beginsScalar hbegins) hrest hkind]
          exact ⟨by simp [herrors, hothers.errors], hothers.bracket⟩

theorem EndsAtBracket.closed {r : Reading tokens} (h : EndsAtBracket r behind) :
    (r.append (closingBracket stop r.rest)).Leaves behind := by
  obtain ⟨t, ts, hrest, hkind, hbehind⟩ := h.bracket
  have hclosing : ∀ left, left = t :: ts →
      (closingBracket stop left).errors = [] ∧ (closingBracket stop left).rest = ts := by
    rintro _ rfl
    rw [closingBracket, if_pos hkind]
    exact ⟨rfl, rfl⟩
  obtain ⟨herrors, hleft⟩ := hclosing r.rest hrest
  exact ⟨by simp [h.errors, herrors], by simp [hleft, hbehind]⟩

theorem complete_value {v : List Symbol} (hv : IsValue v)
    (hfirst : first.kind.isTrivia = false) (h : ofTokens (first :: tokens) = v ++ behind)
    (hends : EndsName behind) : (value stop first tokens).Leaves behind := by
  cases hv with
  | scalar hs =>
      have hkind : first.kind ≠ .leftBracket := by
        obtain hkind | hkind | hkind | hkind := beginsScalar_of_ofTokens hs hfirst h <;>
          rw [hkind] <;> exact SyntaxKind.noConfusion
      rw [value, if_neg hkind]
      exact complete_scalar hs hfirst h hends
  | list i j helements =>
      have hkind : first.kind = .leftBracket := kind_of_ofTokens hfirst h
      rw [ofTokens_cons hfirst, List.cons_append, List.append_assoc] at h
      have hinside := (List.cons.inj h).2
      rw [← ofTokens_trivia_rest] at hinside
      have hlist : EndsAtBracket (listElements stop (trivia tokens).rest) behind :=
        complete_listElements helements (isTrivia_of_head_rest tokens) hinside
      have hspaced : EndsAtBracket
          ((trivia tokens).append (listElements stop (trivia tokens).rest)) behind :=
        ⟨by simp [hlist.errors], hlist.bracket⟩
      rw [value, if_pos hkind]
      exact ⟨hspaced.closed.errors, hspaced.closed.rest⟩

/-! ## Properties and blocks -/

theorem complete_valueEnd {joined : Bool} (h : ofTokens tokens = ⟨.newline, joined⟩ :: behind) :
    (valueEnd stop .never tokens).Leaves behind := by
  obtain ⟨newline, more, hrest, hkind, hmore⟩ := exists_rest_of_ofTokens h
  rw [valueEnd_cons hrest, if_pos hkind]
  exact ⟨⟨by simp, hmore⟩, rfl⟩

/-- A value and the end of its line. -/
theorem complete_line {v : List Symbol} (hv : IsValue v) (ht : t.kind.isTrivia = false)
    {joined : Bool} (h : ofTokens (t :: ts) = v ++ ⟨.newline, joined⟩ :: behind) :
    ((valueEnd stop .never (value stop t ts).rest).lift
      ((value stop t ts).append ·)).Leaves behind := by
  have hvalue : (value stop t ts).Leaves (⟨.newline, joined⟩ :: behind) :=
    complete_value hv ht h (endsName_cons SyntaxKind.noConfusion)
  have hline : (valueEnd stop .never (value stop t ts).rest).Leaves behind :=
    complete_valueEnd hvalue.rest
  obtain ⟨⟨herrors, hrest⟩, hsignal⟩ := hline
  exact ⟨⟨by simp [hvalue.errors, herrors], by simpa using hrest⟩, hsignal⟩

/-- The rules for properties and blocks are complete on lists shorter than a bound. -/
structure CompleteBelow (stop bound : Nat) : Prop where
  propertyValue : ∀ tokens i j s behind, tokens.length < bound →
    IsProperty (⟨.ident, i⟩ :: ⟨.colon, j⟩ :: s) → EndsProperty behind →
    ofTokens tokens = s ++ behind → (propertyValue stop .never tokens).Leaves behind
  property : ∀ key tokens p behind, tokens.length < bound → key.kind.isTrivia = false →
    IsProperty p → EndsProperty behind → ofTokens (key :: tokens) = p ++ behind →
    (property stop .never key tokens).Leaves behind
  itemProperties : ∀ tokens m j behind, tokens.length < bound → IsMembers m →
    ofTokens tokens = m ++ ⟨.dedent, j⟩ :: behind →
    ∃ others, IsMembers others ∧
      (itemProperties stop .never tokens).Leaves (others ++ ⟨.dedent, j⟩ :: behind)
  listItem : ∀ dash tokens m j behind, tokens.length < bound → dash.kind = .dash →
    IsMembers m → ofTokens (dash :: tokens) = m ++ ⟨.dedent, j⟩ :: behind →
    ∃ others, IsMembers others ∧
      (listItem stop .never dash tokens).Leaves (others ++ ⟨.dedent, j⟩ :: behind)
  members : ∀ tokens m j behind, tokens.length < bound → IsMembers m →
    ofTokens tokens = m ++ ⟨.dedent, j⟩ :: behind →
    (members stop .never tokens).Leaves behind

theorem beginsValue_of_ofTokens {v : List Symbol} (hv : IsValue v)
    (ht : t.kind.isTrivia = false) (h : ofTokens (t :: ts) = v ++ behind) :
    beginsValue t.kind = true := by
  obtain ⟨head, rest, rfl, hhead⟩ := hv.head
  rw [beginsValue_iff, kind_of_ofTokens ht h]
  exact hhead

theorem complete_propertyValue (ih : CompleteBelow stop tokens.length) {i j : Bool}
    {s : List Symbol} (hs : IsProperty (⟨.ident, i⟩ :: ⟨.colon, j⟩ :: s))
    (hends : EndsProperty behind) (h : ofTokens tokens = s ++ behind) :
    (propertyValue stop .never tokens).Leaves behind := by
  cases hrest : (trivia tokens).rest with
  | nil =>
      rw [ofTokens_of_rest_nil hrest] at h
      cases hs <;> simp at h
  | cons t ts =>
      have ht := isTrivia_of_rest hrest
      have hts := length_lt_of_rest hrest
      rw [ofTokens_of_rest hrest, ← ofTokens_cons ht] at h
      cases hs with
      | inline i j k hv =>
          rw [List.append_assoc] at h
          have hbegins := beginsValue_of_ofTokens hv ht h
          have hkind : t.kind ≠ .newline := by
            intro hkind
            rw [hkind] at hbegins
            cases hbegins
          have hline : ((valueEnd stop .never (value stop t ts).rest).lift
              ((value stop t ts).append ·)).Leaves behind := complete_line hv ht h
          rw [propertyValue_inline hrest hkind, if_pos hbegins]
          exact ⟨⟨by simpa using hline.reading.errors, hline.reading.rest⟩, hline.signal⟩
      | bare i j k =>
          have hkind : t.kind = .newline := kind_of_ofTokens ht h
          rw [ofTokens_cons ht] at h
          have hbehind : ofTokens ts = behind := (List.cons.inj h).2
          have hblank : blank ts = trivia ts :=
            blank_eq_trivia fun s hs => (hends s (hbehind ▸ hs)).1
          -- a block would belong to the property, so what stands behind does not begin with one
          have hfirst : ∀ first ∈ (blank ts).rest.head?, first.kind ≠ .indent := by
            intro first hfirst
            obtain ⟨more, hmore⟩ := List.head?_eq_some_iff.mp hfirst
            have hsymbols := ofTokens_of_rest (hblank ▸ hmore)
            exact (hends _ (by rw [← hbehind, hsymbols]; rfl)).2
          rw [propertyValue_newline hrest hkind hfirst]
          refine ⟨⟨by simp, ?_⟩, rfl⟩
          show ofTokens (blank ts).rest = behind
          rw [hblank, ofTokens_trivia_rest, hbehind]
      | nested i j k hblock =>
          obtain ⟨i', j', hm⟩ := hblock
          have hkind : t.kind = .newline := kind_of_ofTokens ht h
          rw [ofTokens_cons ht] at h
          have hbehind : ofTokens ts = ⟨.indent, i'⟩ :: (_ ++ behind) := (List.cons.inj h).2
          have hblank : blank ts = trivia ts := blank_eq_trivia (by simp [hbehind])
          obtain ⟨first, more, hfirst, hindent, hinside⟩ := exists_rest_of_ofTokens hbehind
          rw [← hblank] at hfirst
          rw [List.append_assoc] at hinside
          have hmore := length_lt_of_rest hfirst
          have hmembers := ih.members more _ j' behind (by omega) hm hinside
          rw [propertyValue_block hrest hkind hfirst hindent]
          exact ⟨⟨by simp [hmembers.reading.errors], hmembers.reading.rest⟩, hmembers.signal⟩

theorem complete_property (ih : CompleteBelow stop tokens.length) {key : Token}
    {p : List Symbol} (hkey : key.kind.isTrivia = false) (hp : IsProperty p)
    (hends : EndsProperty behind) (h : ofTokens (key :: tokens) = p ++ behind) :
    (property stop .never key tokens).Leaves behind := by
  obtain ⟨i, j, s, rfl⟩ := hp.head
  rw [ofTokens_cons hkey] at h
  have hbehind : ofTokens tokens = ⟨.colon, j⟩ :: (s ++ behind) := (List.cons.inj h).2
  obtain ⟨colon, more, hrest, hcolon, hmore⟩ := exists_rest_of_ofTokens hbehind
  have hvalue := ih.propertyValue more i j s behind (length_lt_of_rest hrest) hp hends hmore
  rw [property_colon key hrest hcolon]
  exact ⟨⟨by simp [hvalue.reading.errors], hvalue.reading.rest⟩, hvalue.signal⟩

/-- A property with the further properties of an item behind it. -/
theorem complete_properties (ih : CompleteBelow stop tokens.length)
    (hts : ts.length < tokens.length) (ht : t.kind.isTrivia = false) {p m : List Symbol}
    (hp : IsProperty p) (hm : IsMembers m) {j : Bool}
    (h : ofTokens (t :: ts) = p ++ (m ++ ⟨.dedent, j⟩ :: behind)) :
    ∃ others, IsMembers others ∧
      (properties stop t ts).Leaves (others ++ ⟨.dedent, j⟩ :: behind) := by
  have hle := (property stop .never t ts).rest_length_le
  have hproperty := ih.property t ts p _ hts ht hp (hm.endsProperty j) h
  obtain ⟨others, hothers, hrest⟩ :=
    ih.itemProperties _ m j behind (by omega) hm hproperty.reading.rest
  refine ⟨others, hothers, ?_, hrest.reading.rest⟩
  simp [properties, hproperty.reading.errors, hrest.reading.errors]

theorem complete_itemProperties (ih : CompleteBelow stop tokens.length) {m : List Symbol}
    (hm : IsMembers m) {j : Bool} (h : ofTokens tokens = m ++ ⟨.dedent, j⟩ :: behind) :
    ∃ others, IsMembers others ∧
      (itemProperties stop .never tokens).Leaves (others ++ ⟨.dedent, j⟩ :: behind) := by
  have hblank : blank tokens = trivia tokens :=
    blank_eq_trivia fun s hs => (hm.endsProperty j s (h ▸ hs)).1
  have hleft : ofTokens (blank tokens).rest = m ++ ⟨.dedent, j⟩ :: behind := by
    rw [hblank, ofTokens_trivia_rest, h]
  rcases next_cases .ident (blank tokens).rest with ⟨t, ts, hrest, hkind⟩ | hother
  · -- the item goes on with a property, which is the first of the members
    have ht : t.kind.isTrivia = false := isTrivia_of_rest (hblank ▸ hrest)
    rw [hrest] at hleft
    cases hm with
    | none => exact absurd (kind_of_ofTokens ht hleft) (by simp [hkind])
    | property hp hm =>
        rw [List.append_assoc] at hleft
        obtain ⟨others, hothers, hitem⟩ :=
          complete_properties ih (length_lt_of_rest hrest) ht hp hm hleft
        refine ⟨others, hothers, ?_, signal_itemProperties stop tokens⟩
        rw [itemProperties_ident hrest hkind]
        exact ⟨by simpa using hitem.errors, hitem.rest⟩
    | itemProperty | itemValue => exact absurd (kind_of_ofTokens ht hleft) (by simp [hkind])
  · refine ⟨m, hm, ?_, signal_itemProperties stop tokens⟩
    rw [itemProperties_other hother]
    exact ⟨errors_blank tokens, hleft⟩

theorem nextKind?_of_ofTokens {s : Symbol} (h : ofTokens tokens = s :: behind) :
    nextKind? tokens = some s.kind := by
  induction tokens with
  | nil => cases h
  | cons t ts ih =>
      cases ht : t.kind.isTrivia with
      | true =>
          rw [ofTokens_trivia ht] at h
          simpa [nextKind?, ht] using ih h
      | false =>
          rw [← kind_of_ofTokens ht h]
          simp [nextKind?, ht]

/-- A value in a list item is not taken for the key of a property. -/
theorem nextKind?_ne_colon {v : List Symbol} (hv : IsValue v) (ht : t.kind.isTrivia = false)
    {joined : Bool} (h : ofTokens (t :: ts) = v ++ ⟨.newline, joined⟩ :: behind)
    (hkind : t.kind = .ident) : nextKind? ts ≠ some .colon := by
  obtain ⟨first, rest, rfl, -⟩ := hv.head
  rw [ofTokens_cons ht] at h
  obtain ⟨rfl, hrest⟩ := List.cons.inj h
  obtain rfl | ⟨dot, more, rfl, hdot⟩ := hv.eq_nil_or_dot hkind
  · rw [nextKind?_of_ofTokens hrest]
    simp
  · rw [nextKind?_of_ofTokens hrest, hdot]
    simp

theorem complete_listItem (ih : CompleteBelow stop tokens.length) {dash : Token}
    (hdash : dash.kind = .dash) {m : List Symbol} (hm : IsMembers m) {j : Bool}
    (h : ofTokens (dash :: tokens) = m ++ ⟨.dedent, j⟩ :: behind) :
    ∃ others, IsMembers others ∧
      (listItem stop .never dash tokens).Leaves (others ++ ⟨.dedent, j⟩ :: behind) := by
  have htrivia : dash.kind.isTrivia = false := by rw [hdash]; rfl
  cases hm with
  | none => exact absurd (kind_of_ofTokens htrivia h) (by simp [hdash])
  | property hp hm =>
      obtain ⟨i, i', rest, rfl⟩ := hp.head
      exact absurd (kind_of_ofTokens htrivia h) (by simp [hdash])
  | itemProperty i hp hm =>
      rw [ofTokens_cons htrivia, List.cons_append, List.append_assoc] at h
      have hitem := (List.cons.inj h).2
      cases hrest : (trivia tokens).rest with
      | nil =>
          rw [ofTokens_of_rest_nil hrest] at hitem
          obtain ⟨i, i', rest, rfl⟩ := hp.head
          cases hitem
      | cons t ts =>
          have ht := isTrivia_of_rest hrest
          rw [ofTokens_of_rest hrest, ← ofTokens_cons ht] at hitem
          have hkey : t.kind = .ident ∧ nextKind? ts = some .colon := by
            obtain ⟨i, i', rest, rfl⟩ := hp.head
            rw [ofTokens_cons ht] at hitem
            obtain ⟨hsymbol, hbehind⟩ := List.cons.inj hitem
            exact ⟨congrArg Symbol.kind hsymbol, nextKind?_of_ofTokens hbehind⟩
          obtain ⟨others, hothers, hproperties⟩ :=
            complete_properties ih (length_lt_of_rest hrest) ht hp hm hitem
          refine ⟨others, hothers, ?_, signal_listItem stop dash tokens⟩
          rw [listItem_cons dash hrest, if_pos hkey]
          exact ⟨by simpa using hproperties.errors, hproperties.rest⟩
  | itemValue i k hv hm =>
      rw [ofTokens_cons htrivia, List.cons_append, List.append_assoc] at h
      have hitem := (List.cons.inj h).2
      cases hrest : (trivia tokens).rest with
      | nil =>
          rw [ofTokens_of_rest_nil hrest] at hitem
          simp at hitem
      | cons t ts =>
          have ht := isTrivia_of_rest hrest
          rw [ofTokens_of_rest hrest, ← ofTokens_cons ht] at hitem
          have hkey : ¬ (t.kind = .ident ∧ nextKind? ts = some .colon) :=
            fun hkey => nextKind?_ne_colon hv ht hitem hkey.1 hkey.2
          have hline : ((valueEnd stop .never (value stop t ts).rest).lift
              ((value stop t ts).append ·)).Leaves _ := complete_line hv ht hitem
          refine ⟨_, hm, ?_, signal_listItem stop dash tokens⟩
          rw [listItem_cons dash hrest, if_neg hkey, if_pos (beginsValue_of_ofTokens hv ht hitem)]
          exact ⟨by simpa using hline.reading.errors, hline.reading.rest⟩

/-- One member of a block, and the block behind it. -/
theorem complete_membersBehind (ih : CompleteBelow stop tokens.length)
    (hts : ts.length < tokens.length) {member : Reading ts} {m : List Symbol} {j : Bool}
    (hm : IsMembers m) (h : member.Leaves (m ++ ⟨.dedent, j⟩ :: behind)) :
    (member.append (members stop .never member.rest).toReading).Leaves behind := by
  have hle := member.rest_length_le
  have hothers := ih.members member.rest m j behind (by omega) hm h.rest
  exact ⟨by simp [h.errors, hothers.reading.errors], hothers.reading.rest⟩

theorem complete_members (ih : CompleteBelow stop tokens.length) {m : List Symbol}
    (hm : IsMembers m) {j : Bool} (h : ofTokens tokens = m ++ ⟨.dedent, j⟩ :: behind) :
    (members stop .never tokens).Leaves behind := by
  have hblank : blank tokens = trivia tokens :=
    blank_eq_trivia fun s hs => (hm.endsProperty j s (h ▸ hs)).1
  refine ⟨?_, signal_members stop tokens⟩
  cases hrest : (blank tokens).rest with
  | nil =>
      rw [ofTokens_of_rest_nil (hblank ▸ hrest)] at h
      simp at h
  | cons t ts =>
      have hts := length_lt_of_rest hrest
      have ht := isTrivia_of_rest (hblank ▸ hrest)
      rw [ofTokens_of_rest (hblank ▸ hrest), ← ofTokens_cons ht] at h
      -- a member that leaves other members of the block is followed by these
      have hmember : ∀ {others : List Symbol}, t.kind ≠ .dedent → IsMembers others →
          (member stop t ts).Leaves (others ++ ⟨.dedent, j⟩ :: behind) →
          (members stop .never tokens).toReading.Leaves behind := by
        intro others hkind hothers hleaves
        have hblock := complete_membersBehind ih hts hothers hleaves
        rw [members_cons hrest hkind]
        exact ⟨by simpa using hblock.errors, hblock.rest⟩
      have hitem := fun hkind : t.kind = .dash => ih.listItem t ts m j behind hts hkind hm h
      cases hm with
      | none =>
          rw [members_dedent hrest (kind_of_ofTokens ht h)]
          rw [ofTokens_cons ht] at h
          exact ⟨by simp, (List.cons.inj h).2⟩
      | property hp hm =>
          have hkind : t.kind = .ident := by
            obtain ⟨i, i', rest, rfl⟩ := hp.head
            exact kind_of_ofTokens ht h
          rw [List.append_assoc] at h
          have hproperty := ih.property t ts _ _ hts ht hp (hm.endsProperty j) h
          refine hmember (by rw [hkind]; exact SyntaxKind.noConfusion) hm ?_
          rw [member, if_pos hkind]
          exact hproperty.reading
      | itemProperty | itemValue =>
          have hkind : t.kind = .dash := kind_of_ofTokens ht h
          obtain ⟨others, hothers, hleaves⟩ := hitem hkind
          refine hmember (by rw [hkind]; exact SyntaxKind.noConfusion) hothers ?_
          rw [member, if_neg (by rw [hkind]; exact SyntaxKind.noConfusion), if_pos hkind]
          exact hleaves.reading

theorem CompleteBelow.mono {bound smaller : Nat} (h : CompleteBelow stop bound)
    (hle : smaller ≤ bound) : CompleteBelow stop smaller where
  propertyValue := fun tokens i j s behind hlt => h.propertyValue tokens i j s behind (by omega)
  property := fun key tokens p behind hlt => h.property key tokens p behind (by omega)
  itemProperties := fun tokens m j behind hlt => h.itemProperties tokens m j behind (by omega)
  listItem := fun dash tokens m j behind hlt => h.listItem dash tokens m j behind (by omega)
  members := fun tokens m j behind hlt => h.members tokens m j behind (by omega)

theorem completeBelow (stop bound : Nat) : CompleteBelow stop bound := by
  induction bound with
  | zero => constructor <;> intros <;> contradiction
  | succ bound ih =>
      have hbelow : ∀ {tokens : List Token}, tokens.length < bound + 1 →
          CompleteBelow stop tokens.length := fun hlt => ih.mono (by omega)
      exact
        { propertyValue := fun _ _ _ _ _ hlt hs hends =>
            complete_propertyValue (hbelow hlt) hs hends
          property := fun _ _ _ _ hlt hkey hp hends => complete_property (hbelow hlt) hkey hp hends
          itemProperties := fun _ _ _ _ hlt hm => complete_itemProperties (hbelow hlt) hm
          listItem := fun _ _ _ _ _ hlt hdash hm => complete_listItem (hbelow hlt) hdash hm
          members := fun _ _ _ _ hlt hm => complete_members (hbelow hlt) hm }

/-! ## Files -/

theorem rest_blank_of_ofTokens (h : ofTokens tokens = []) : (blank tokens).rest = [] := by
  have hblank : blank tokens = trivia tokens := blank_eq_trivia (by simp [h])
  cases hrest : (blank tokens).rest with
  | nil => rfl
  | cons t ts =>
      rw [ofTokens_of_rest (hblank ▸ hrest)] at h
      cases h

theorem errors_fileMembers_of_rest_nil {roots : Nat} (h : (blank tokens).rest = []) :
    (fileMembers stop .never roots tokens).errors = [] := by
  rw [fileMembers_nil roots h]
  exact errors_blank tokens

theorem complete_fileMembers (h : IsFile (ofTokens tokens)) :
    (fileMembers stop .never 0 tokens).errors = [] := by
  obtain hnil | hp := h
  · exact errors_fileMembers_of_rest_nil (rest_blank_of_ofTokens hnil)
  · obtain ⟨i, j, rest, hhead⟩ := hp.head
    have hblank : blank tokens = trivia tokens := blank_eq_trivia (by simp [hhead])
    obtain ⟨t, ts, hrest, hkind, -⟩ := exists_rest_of_ofTokens hhead
    have ht := isTrivia_of_rest hrest
    rw [ofTokens_of_rest hrest, ← ofTokens_cons ht] at hp
    have hnothing : EndsProperty [] := by simp [EndsProperty]
    have hproperty : (property stop .never t ts).Leaves [] :=
      (completeBelow stop tokens.length).property t ts _ [] (length_lt_of_rest hrest) ht hp
        hnothing (List.append_nil _).symm
    rw [errors_fileMembers_of_ident (hblank ▸ hrest) hkind, hproperty.signal,
      hproperty.reading.errors, List.nil_append]
    exact errors_fileMembers_of_rest_nil (rest_blank_of_ofTokens hproperty.reading.rest)

end Grammar

/-- Of the texts that are empty or end in a line end, those are read without a report whose
symbols form a file. -/
theorem Parse.errors_eq_nil_iff (text : String)
    (h : text = "" ∨ text.toList.getLast? = some '\n') :
    (Parse.ofText false text).errors = [] ↔
      IsFile (Symbol.ofTokens (tokenize false text).tokens) := by
  have hlaid : LaidOut true 0 (Symbol.ofTokens (tokenize false text).tokens) := by
    rw [LaidOut, Symbol.map_kind_ofTokens]
    exact follows_tokenize h
  exact ⟨Grammar.sound_fileMembers hlaid, Grammar.complete_fileMembers⟩

/-- A model in which values, blocks and list items are nested. -/
theorem Parse.errors_eq_nil_iff_nested :
    let text := "a:\n  b: [c.d, 1]\n  e:\n    - f: x\n      g:\n    - \"y\"\n"
    (text = "" ∨ text.toList.getLast? = some '\n') ∧
      IsFile (Symbol.ofTokens (tokenize false text).tokens) :=
  ⟨by decide +kernel,
    (Parse.errors_eq_nil_iff _ (by decide +kernel)).mp (by decide +kernel)⟩

end ModelWorkspace
