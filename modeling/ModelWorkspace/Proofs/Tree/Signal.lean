import ModelWorkspace.Proofs.Tree.Closure
import ModelWorkspace.Proofs.Tree.Symbols

/-!
# Reading that is never called off

Where reading is never called off, every look finds that it is not, and the signal behind a
rule is the one before it.  `rules_induction` is the induction that the rules for properties
and blocks share: they call each other on shorter lists of tokens only, so what holds of all
of them on a list may be shown from what holds of all of them on shorter ones.
-/

namespace ModelWorkspace
namespace Grammar

/-- A property of lists of tokens holds of all of them if it does whenever it holds of all
shorter ones. -/
theorem rules_induction {motive : List Token → Prop}
    (step : ∀ tokens, (∀ shorter, shorter.length < tokens.length → motive shorter) →
      motive tokens) (tokens : List Token) : motive tokens :=
  (measure List.length).wf.induction tokens step

/-- The rules leave no signal behind on these tokens. -/
structure NeverAt (stop : Nat) (tokens : List Token) : Prop where
  valueEnd : (valueEnd stop .never tokens).signal = .never
  propertyValue : (propertyValue stop .never tokens).signal = .never
  property : ∀ key, (property stop .never key tokens).signal = .never
  itemProperties : (itemProperties stop .never tokens).signal = .never
  listItem : ∀ dash, (listItem stop .never dash tokens).signal = .never
  members : (members stop .never tokens).signal = .never

section

variable {stop : Nat} {tokens ts : List Token} {t : Token}

theorem propertyOrKey_never (key : Token) (tokens : List Token) :
    propertyOrKey stop .never key tokens = property stop .never key tokens := by
  rw [propertyOrKey]
  rfl

theorem NeverAt.valueEnd_of (ih : ∀ shorter, shorter.length < tokens.length →
    NeverAt stop shorter) : (Grammar.valueEnd stop .never tokens).signal = .never := by
  rw [Grammar.valueEnd]
  dsimp only
  split
  · rfl
  · rename_i t ts h
    have hts := length_lt_of_rest h
    split
    · rfl
    · split
      · rfl
      · split
        · exact (ih ts hts).members
        · rfl

theorem NeverAt.propertyValue_of (ih : ∀ shorter, shorter.length < tokens.length →
    NeverAt stop shorter) : (Grammar.propertyValue stop .never tokens).signal = .never := by
  rw [Grammar.propertyValue]
  dsimp only
  split
  · rfl
  · rename_i t ts h
    have hts := length_lt_of_rest h
    split
    · split
      · rfl
      · rename_i first more h'
        have hmore := length_lt_of_rest h'
        split
        · exact (ih more (by omega)).members
        · rfl
    · split
      · have hrest := (value stop t ts).rest_length_le
        exact (ih (value stop t ts).rest (by omega)).valueEnd
      · rfl

theorem NeverAt.property_of (ih : ∀ shorter, shorter.length < tokens.length →
    NeverAt stop shorter) (key : Token) :
    (Grammar.property stop .never key tokens).signal = .never := by
  rw [Grammar.property]
  dsimp only
  split
  · rfl
  · rename_i colon more h
    split
    · exact (ih more (length_lt_of_rest h)).propertyValue
    · rfl

theorem NeverAt.properties (ih : ∀ shorter, shorter.length < tokens.length →
    NeverAt stop shorter) (hts : ts.length < tokens.length) (t : Token) :
    (Grammar.itemProperties stop (Grammar.property stop .never t ts).signal
      (Grammar.property stop .never t ts).rest).signal = .never := by
  have hrest := (Grammar.property stop .never t ts).rest_length_le
  rw [(ih ts hts).property t]
  exact (ih _ (by omega)).itemProperties

theorem NeverAt.itemProperties_of (ih : ∀ shorter, shorter.length < tokens.length →
    NeverAt stop shorter) : (Grammar.itemProperties stop .never tokens).signal = .never := by
  rw [Grammar.itemProperties]
  dsimp only
  split
  · rfl
  · rename_i t ts h
    split
    · exact NeverAt.properties ih (length_lt_of_rest h) t
    · rfl

theorem NeverAt.listItem_of (ih : ∀ shorter, shorter.length < tokens.length →
    NeverAt stop shorter) (dash : Token) :
    (Grammar.listItem stop .never dash tokens).signal = .never := by
  rw [Grammar.listItem]
  dsimp only
  split
  · rfl
  · rename_i t ts h
    have hts := length_lt_of_rest h
    split
    · exact NeverAt.properties ih hts t
    · split
      · have hrest := (value stop t ts).rest_length_le
        exact (ih (value stop t ts).rest (by omega)).valueEnd
      · split <;> rfl

theorem NeverAt.members_of (ih : ∀ shorter, shorter.length < tokens.length →
    NeverAt stop shorter) : (Grammar.members stop .never tokens).signal = .never := by
  rw [Grammar.members]
  dsimp only
  split
  · rfl
  · rename_i t ts h
    have hts := length_lt_of_rest h
    simp only [Signal.stops_never, Signal.next_never, Bool.false_eq_true, if_false]
    split
    · rfl
    · -- one member, and then the members behind it
      have hbehind : ∀ member : Guarded ts, member.signal = .never →
          (Grammar.members stop member.signal member.rest).signal = .never := by
        intro member hmember
        rw [hmember]
        exact (ih _ (Nat.lt_of_le_of_lt member.rest_length_le hts)).members
      refine hbehind _ ?_
      split
      · rw [propertyOrKey_never]
        exact (ih ts hts).property t
      · split
        · exact (ih ts hts).listItem t
        · split
          · exact (ih ts hts).members
          · rfl

theorem neverAt (stop : Nat) (tokens : List Token) : NeverAt stop tokens := by
  induction tokens using rules_induction with
  | step tokens ih =>
      exact ⟨NeverAt.valueEnd_of ih, NeverAt.propertyValue_of ih, NeverAt.property_of ih,
        NeverAt.itemProperties_of ih, NeverAt.listItem_of ih, NeverAt.members_of ih⟩

end

@[simp] theorem signal_valueEnd (stop : Nat) (tokens : List Token) :
    (valueEnd stop .never tokens).signal = .never := (neverAt stop tokens).valueEnd

@[simp] theorem signal_propertyValue (stop : Nat) (tokens : List Token) :
    (propertyValue stop .never tokens).signal = .never := (neverAt stop tokens).propertyValue

@[simp] theorem signal_property (stop : Nat) (key : Token) (tokens : List Token) :
    (property stop .never key tokens).signal = .never := (neverAt stop tokens).property key

@[simp] theorem signal_itemProperties (stop : Nat) (tokens : List Token) :
    (itemProperties stop .never tokens).signal = .never := (neverAt stop tokens).itemProperties

@[simp] theorem signal_listItem (stop : Nat) (dash : Token) (tokens : List Token) :
    (listItem stop .never dash tokens).signal = .never := (neverAt stop tokens).listItem dash

@[simp] theorem signal_members (stop : Nat) (tokens : List Token) :
    (members stop .never tokens).signal = .never := (neverAt stop tokens).members

end Grammar
end ModelWorkspace
