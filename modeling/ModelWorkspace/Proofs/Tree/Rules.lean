import ModelWorkspace.Proofs.Tree.Signal

/-!
# The rules as equations

Each rule for properties and blocks by the token that it finds behind trivia, where reading is
never called off.
-/

namespace ModelWorkspace
namespace Grammar

variable {stop : Nat} {tokens ts : List Token} {t : Token}

theorem head_ne_of_nil {kind : SyntaxKind} (h : tokens = []) :
    ∀ next ∈ tokens.head?, next.kind ≠ kind := by
  subst h
  exact fun _ hnext => by cases hnext

theorem head_ne_of_cons {kind : SyntaxKind} (h : tokens = t :: ts) (ht : t.kind ≠ kind) :
    ∀ next ∈ tokens.head?, next.kind ≠ kind := by
  subst h
  exact fun _ hnext => Option.some.inj hnext ▸ ht

/-- A token of a kind comes next, or none does. -/
theorem next_cases (kind : SyntaxKind) (tokens : List Token) :
    (∃ t ts, tokens = t :: ts ∧ t.kind = kind) ∨ ∀ t ∈ tokens.head?, t.kind ≠ kind := by
  cases tokens with
  | nil => exact .inr (head_ne_of_nil rfl)
  | cons t ts =>
      by_cases ht : t.kind = kind
      · exact .inl ⟨t, ts, rfl, ht⟩
      · exact .inr (head_ne_of_cons rfl ht)

/-! ## Elements of a list -/

theorem listElements_nil : listElements stop [] = .nothing [] := by
  rw [listElements]

theorem listElements_stop (h : t.kind = .rightBracket ∨ t.kind = .newline) :
    listElements stop (t :: ts) = .nothing (t :: ts) := by
  rw [listElements, if_pos h]

/-- An element and the trivia behind it. -/
def spacedElement (stop : Nat) (t : Token) (ts : List Token) : Reading ts :=
  (listElement stop t ts).append (trivia (listElement stop t ts).rest)

theorem listElements_last (ht : ¬(t.kind = .rightBracket ∨ t.kind = .newline))
    (h : ∀ comma ∈ (spacedElement stop t ts).rest.head?, comma.kind ≠ .comma) :
    listElements stop (t :: ts) = (spacedElement stop t ts).behind t := by
  rw [listElements, if_neg ht]
  dsimp only
  split
  · rfl
  · rename_i comma more hmore
    have hcomma : comma.kind ≠ .comma := h comma (by rw [spacedElement, hmore]; rfl)
    rw [if_neg hcomma]
    rfl

theorem listElements_comma {comma : Token} {more : List Token}
    (ht : ¬(t.kind = .rightBracket ∨ t.kind = .newline))
    (h : (spacedElement stop t ts).rest = comma :: more) (hcomma : comma.kind = .comma) :
    listElements stop (t :: ts) = ((spacedElement stop t ts).followedBy h
      (((trivia more).append (listElements stop (trivia more).rest)).withLeaf comma)).behind t := by
  rw [listElements, if_neg ht]
  dsimp only
  split
  · rename_i hnil
    rw [spacedElement, hnil] at h
    cases h
  · rename_i hmore
    rw [spacedElement] at h
    obtain ⟨rfl, rfl⟩ := List.cons.inj (h.symm.trans hmore)
    rw [if_pos hcomma]
    rfl

/-- Where no bracket comes next, it is reported as missing, and nothing is read. -/
theorem closingBracket_other (stop : Nat) (h : ∀ t ∈ tokens.head?, t.kind ≠ .rightBracket) :
    (closingBracket stop tokens).trees = [] ∧
      (closingBracket stop tokens).errors.map SyntaxError.message = ["expected ']'"] ∧
      (closingBracket stop tokens).rest = tokens := by
  cases tokens with
  | nil => exact ⟨rfl, rfl, rfl⟩
  | cons t ts =>
      rw [closingBracket, if_neg (h t rfl)]
      exact ⟨rfl, rfl, rfl⟩

/-- A list behind its opening bracket. -/
def listBody (stop : Nat) (tokens : List Token) : Reading tokens :=
  let elements := (trivia tokens).append (listElements stop (trivia tokens).rest)
  elements.append (closingBracket stop elements.rest)

theorem value_list (h : t.kind = .leftBracket) :
    value stop t ts = (listBody stop ts).wrapFrom .listValue t := by
  rw [value, if_pos h]
  rfl

theorem value_scalar (h : t.kind ≠ .leftBracket) : value stop t ts = scalar stop t ts := by
  rw [value, if_neg h]

/-! ## Values and properties -/

theorem valueEnd_nil (h : (trivia tokens).rest = []) :
    valueEnd stop .never tokens = (trivia tokens).guarded .never := by
  rw [valueEnd]
  dsimp only
  split
  · rfl
  · rename_i h'
    cases h.symm.trans h'

theorem valueEnd_cons (h : (trivia tokens).rest = t :: ts) :
    valueEnd stop .never tokens =
      if t.kind = .newline then
        ((trivia tokens).followedBy h ((Reading.nothing ts).withLeaf t)).guarded .never
      else if t.kind = .dedent then (trivia tokens).guarded .never
      else if t.kind = .indent then
        (members stop .never ts).lift fun block =>
          (trivia tokens).followedBy h ((((block.wrapFrom .block t).wrap .error).behind t).report
            "unexpected indentation after an inline value" t.range)
      else
        ((trivia tokens).followedBy h
          (recoverLine stop "unexpected input after value" (t :: ts))).guarded .never := by
  rw [valueEnd]
  dsimp only
  split
  · rename_i h'
    cases h.symm.trans h'
  · rename_i h'
    obtain ⟨rfl, rfl⟩ := List.cons.inj (h.symm.trans h')
    rfl

theorem propertyValue_nil (h : (trivia tokens).rest = []) :
    propertyValue stop .never tokens = (trivia tokens).guarded .never := by
  rw [propertyValue]
  dsimp only
  split
  · rfl
  · rename_i h'
    cases h.symm.trans h'

/-- Behind the end of the line no block follows. -/
theorem propertyValue_newline (h : (trivia tokens).rest = t :: ts) (ht : t.kind = .newline)
    (hfirst : ∀ first ∈ (blank ts).rest.head?, first.kind ≠ .indent) :
    propertyValue stop .never tokens =
      ((trivia tokens).followedBy h ((blank ts).withLeaf t)).guarded .never := by
  rw [propertyValue]
  dsimp only
  split
  · rename_i h'
    cases h.symm.trans h'
  · rename_i h'
    obtain ⟨rfl, rfl⟩ := List.cons.inj (h.symm.trans h')
    rw [if_pos ht]
    split
    · rfl
    · rename_i first more hmore
      rw [if_neg (hfirst first (by rw [hmore]; rfl))]

theorem propertyValue_block {first : Token} {more : List Token}
    (h : (trivia tokens).rest = t :: ts) (ht : t.kind = .newline)
    (hmore : (blank ts).rest = first :: more) (hfirst : first.kind = .indent) :
    propertyValue stop .never tokens =
      (members stop .never more).lift fun block =>
        (trivia tokens).followedBy h (((blank ts).followedBy hmore
          ((block.wrapFrom .block first).behind first)).withLeaf t) := by
  rw [propertyValue]
  dsimp only
  split
  · rename_i h'
    cases h.symm.trans h'
  · rename_i h'
    obtain ⟨rfl, rfl⟩ := List.cons.inj (h.symm.trans h')
    rw [if_pos ht]
    split
    · rename_i hnil
      cases hmore.symm.trans hnil
    · rename_i hmore'
      obtain ⟨rfl, rfl⟩ := List.cons.inj (hmore.symm.trans hmore')
      rw [if_pos hfirst]

/-- What stands on the same line. -/
theorem propertyValue_inline (h : (trivia tokens).rest = t :: ts) (ht : t.kind ≠ .newline) :
    propertyValue stop .never tokens =
      if beginsValue t.kind then
        (valueEnd stop .never (value stop t ts).rest).lift fun line =>
          (trivia tokens).followedBy h (((value stop t ts).append line).behind t)
      else
        ((trivia tokens).followedBy h
          (recoverLine stop "expected a value or a nested block" (t :: ts))).guarded .never := by
  rw [propertyValue]
  dsimp only
  split
  · rename_i h'
    cases h.symm.trans h'
  · rename_i h'
    obtain ⟨rfl, rfl⟩ := List.cons.inj (h.symm.trans h')
    rw [if_neg ht]

theorem property_colon (key : Token) (h : (trivia tokens).rest = t :: ts)
    (ht : t.kind = .colon) :
    property stop .never key tokens = (propertyValue stop .never ts).lift fun value =>
      ((trivia tokens).followedBy h (value.withLeaf t)).wrapFrom .property key := by
  rw [property]
  dsimp only
  split
  · rename_i h'
    cases h.symm.trans h'
  · rename_i h'
    obtain ⟨rfl, rfl⟩ := List.cons.inj (h.symm.trans h')
    rw [if_pos ht]

theorem property_other (key : Token) {left : List Token} (h : (trivia tokens).rest = left)
    (hleft : ∀ t ∈ left.head?, t.kind ≠ .colon) :
    property stop .never key tokens =
      (((trivia tokens).followedBy h
        (recoverLine stop "expected ':' after property name" left)).wrapFrom
        .property key).guarded .never := by
  rw [property]
  dsimp only
  split
  · rename_i h'
    obtain rfl := h.symm.trans h'
    rfl
  · rename_i colon more h'
    obtain rfl := h.symm.trans h'
    rw [if_neg (hleft colon rfl)]

/-! ## Items and members -/

/-- A property with the further properties of an item behind it. -/
def properties (stop : Nat) (key : Token) (tokens : List Token) : Reading tokens :=
  (property stop .never key tokens).toReading.append
    (itemProperties stop .never (property stop .never key tokens).rest).toReading

theorem itemProperties_ident (h : (blank tokens).rest = t :: ts) (ht : t.kind = .ident) :
    (itemProperties stop .never tokens).toReading =
      (blank tokens).followedBy h ((properties stop t ts).behind t) := by
  rw [itemProperties]
  dsimp only
  split
  · rename_i h'
    cases h.symm.trans h'
  · rename_i h'
    obtain ⟨rfl, rfl⟩ := List.cons.inj (h.symm.trans h')
    simp only [ht, if_true, Signal.stops_never, Signal.next_never, Bool.false_eq_true, if_false,
      signal_property]
    rfl

theorem itemProperties_other (h : ∀ t ∈ (blank tokens).rest.head?, t.kind ≠ .ident) :
    (itemProperties stop .never tokens).toReading = blank tokens := by
  rw [itemProperties]
  dsimp only
  split
  · rfl
  · rename_i t ts h'
    rw [if_neg (h t (by rw [h']; rfl))]
    rfl

theorem listItem_nil (dash : Token) (h : (trivia tokens).rest = []) :
    (listItem stop .never dash tokens).toReading =
      (trivia tokens).wrapFrom .listItem dash := by
  rw [listItem]
  dsimp only
  split
  · rfl
  · rename_i h'
    cases h.symm.trans h'

theorem listItem_cons (dash : Token) (h : (trivia tokens).rest = t :: ts) :
    (listItem stop .never dash tokens).toReading =
      ((trivia tokens).followedBy h
        (if t.kind = .ident ∧ nextKind? ts = some .colon then (properties stop t ts).behind t
        else if beginsValue t.kind then
          ((value stop t ts).append
            (valueEnd stop .never (value stop t ts).rest).toReading).behind t
        else if t.kind = .newline then
          ((Reading.nothing ts).withLeaf t).report "empty list item" t.range
        else
          recoverLine stop "expected a property or value after '-'" (t :: ts))).wrapFrom
        .listItem dash := by
  rw [listItem]
  dsimp only
  split
  · rename_i h'
    cases h.symm.trans h'
  · rename_i h'
    obtain ⟨rfl, rfl⟩ := List.cons.inj (h.symm.trans h')
    simp only [Signal.stops_never, Signal.next_never, Bool.false_eq_true, if_false,
      signal_property]
    split
    · rfl
    · split
      · rfl
      · split <;> rfl

/-- A member of a block, no end of it, that begins with `t`. -/
def member (stop : Nat) (t : Token) (tokens : List Token) : Reading tokens :=
  if t.kind = .ident then (property stop .never t tokens).toReading
  else if t.kind = .dash then (listItem stop .never t tokens).toReading
  else if t.kind = .indent then
    (((members stop .never tokens).wrapFrom .block t).wrap .error).report
      "unexpected indentation" t.range
  else
    (errorFrom t tokens).report ("expected a property or list item, found " ++ t.kind.name)
      t.range

theorem Closed.member {C : ReadingRelation} (hC : Closed stop C) (t : Token)
    (ts : List Token) : (member stop t ts).Meets C (t :: ts) := by
  have hblocks := hC.blocks (ts.length + 1)
  have hlt := Nat.lt_succ_self ts.length
  unfold Grammar.member
  split
  · exact hblocks.property _ t ts hlt
  · split
    · exact hblocks.listItem _ t ts hlt
    · split
      · exact hC.unexpectedBlock (hblocks.members _ ts hlt) t _
      · exact hC.unexpectedLine t ts _

theorem members_nil (h : (blank tokens).rest = []) :
    (members stop .never tokens).toReading = blank tokens := by
  rw [members]
  dsimp only
  split
  · rfl
  · rename_i h'
    cases h.symm.trans h'

theorem members_dedent (h : (blank tokens).rest = t :: ts) (ht : t.kind = .dedent) :
    (members stop .never tokens).toReading =
      (blank tokens).followedBy h ((Reading.nothing ts).withLeaf t) := by
  rw [members]
  dsimp only
  split
  · rename_i h'
    cases h.symm.trans h'
  · rename_i h'
    obtain ⟨rfl, rfl⟩ := List.cons.inj (h.symm.trans h')
    simp only [Signal.stops_never, Bool.false_eq_true, if_false, ht, if_true]
    rfl

theorem members_cons (h : (blank tokens).rest = t :: ts) (ht : t.kind ≠ .dedent) :
    (members stop .never tokens).toReading =
      (blank tokens).followedBy h (((member stop t ts).append
        (members stop .never (member stop t ts).rest).toReading).behind t) := by
  rw [members]
  dsimp only
  split
  · rename_i h'
    cases h.symm.trans h'
  · rename_i h'
    obtain ⟨rfl, rfl⟩ := List.cons.inj (h.symm.trans h')
    simp only [Signal.stops_never, Signal.next_never, Bool.false_eq_true, if_false, ht]
    have hbehind : ∀ g : Guarded ts, g.signal = .never → g.toReading = member stop t ts →
        ((g.append (members stop g.signal g.rest)).lift fun others =>
          (blank tokens).followedBy h (others.behind t)).toReading =
        (blank tokens).followedBy h (((member stop t ts).append
          (members stop .never (member stop t ts).rest).toReading).behind t) := by
      intro g hsignal hreading
      rw [hsignal, ← hreading]
      rfl
    refine hbehind _ ?_ ?_
    · split
      · rw [propertyOrKey_never, signal_property]
      · split
        · exact signal_listItem stop t ts
        · split
          · exact signal_members stop ts
          · rfl
    · rw [member]
      split
      · rw [propertyOrKey_never]
      · split
        · rfl
        · split <;> rfl

/-! ## Files -/

/-- A member of a file, `roots` of which have been properties before, that begins with `t`. -/
def fileMember (stop roots : Nat) (t : Token) (tokens : List Token) : Reading tokens :=
  if t.kind = .ident then
    if roots = 1 then
      (property stop .never t tokens).toReading.report
        "a file holds exactly one root element" t.range
    else (property stop .never t tokens).toReading
  else if t.kind = .indent then
    (((members stop .never tokens).wrapFrom .block t).wrap .error).report
      "unexpected indentation" t.range
  else if t.kind = .dedent then
    { Reading.nothing tokens with
      trees := [.node .error [], .leaf t]
      errors := [⟨"expected a property, found " ++ t.kind.name, t.range⟩] }
  else
    (errorFrom t tokens).report ("expected a property, found " ++ t.kind.name) t.range

theorem Closed.fileMember {C : ReadingRelation} (hC : Closed stop C) (roots : Nat) (t : Token)
    (ts : List Token) : (fileMember stop roots t ts).Meets C (t :: ts) := by
  have hblocks := hC.blocks (ts.length + 1)
  have hlt := Nat.lt_succ_self ts.length
  have hproperty := hblocks.property .never t ts hlt
  unfold Grammar.fileMember
  split
  · split
    · exact hC.reportAt hproperty _ List.mem_cons_self
    · exact hproperty
  · split
    · exact hC.unexpectedBlock (hblocks.members _ ts hlt) t _
    · split
      · have hempty := hC.wrap (hC.nothing (t :: ts)) (by decide : SyntaxKind.error ≠ .scalar)
        have hdedent := hC.append hempty (hC.withLeaf (hC.nothing ts) t)
        exact hC.reportAt hdedent _ List.mem_cons_self
      · exact hC.unexpectedLine t ts _

theorem fileMembers_nil (roots : Nat) (h : (blank tokens).rest = []) :
    (fileMembers stop .never roots tokens).toReading = blank tokens := by
  rw [fileMembers]
  dsimp only
  split
  · rfl
  · rename_i h'
    cases h.symm.trans h'

theorem fileMembers_cons (roots : Nat) (h : (blank tokens).rest = t :: ts) :
    (fileMembers stop .never roots tokens).toReading =
      (blank tokens).followedBy h (((fileMember stop roots t ts).append
        (fileMembers stop .never (if t.kind = .ident then roots + 1 else roots)
          (fileMember stop roots t ts).rest).toReading).behind t) := by
  rw [fileMembers]
  dsimp only
  split
  · rename_i h'
    cases h.symm.trans h'
  · rename_i h'
    obtain ⟨rfl, rfl⟩ := List.cons.inj (h.symm.trans h')
    simp only [Signal.stops_never, Signal.next_never, Bool.false_eq_true, if_false]
    have hbehind : ∀ (g : Guarded ts) (next : Nat), g.signal = .never →
        g.toReading = fileMember stop roots t ts →
        ((g.append (fileMembers stop g.signal next g.rest)).lift fun others =>
          (blank tokens).followedBy h (others.behind t)).toReading =
        (blank tokens).followedBy h (((fileMember stop roots t ts).append
          (fileMembers stop .never next (fileMember stop roots t ts).rest).toReading).behind
            t) := by
      intro g next hsignal hreading
      rw [hsignal, ← hreading]
      rfl
    refine hbehind _ _ ?_ ?_
    · split
      · rw [propertyOrKey_never]
        split <;> exact signal_property stop t ts
      · split
        · exact signal_members stop ts
        · split <;> rfl
    · rw [fileMember]
      split
      · rw [propertyOrKey_never]
        split <;> rfl
      · split
        · rfl
        · split <;> rfl

end Grammar
end ModelWorkspace
