import ModelWorkspace.Proofs.Tree.Symbols

/-!
# The language of properties and blocks

The grammar as a specification: predicates on sequences of symbols, one for each
construct.

    file     = property?
    property = ident ':' (value newline | newline block?)
    block    = indent (property | '-' property | '-' value newline)* dedent
    value    = scalar | '[' (scalar (',' scalar)* ','?)? ']'
    scalar   = string | integer | decimal | ident ('.' ident)*

What a reader needs to know of a construct that it is about to read is how it begins and
what may stand behind it, so each predicate comes with lemmas on its first symbol; and what
a construct does to the nesting is that it ends where it began.
-/

namespace ModelWorkspace

namespace Language

/-! ## Values -/

/-- `ident ('.' ident)*`, with nothing between. -/
inductive IsName : List Symbol → Prop
  | ident (joined : Bool) : IsName [⟨.ident, joined⟩]
  | dotted {name : List Symbol} (h : IsName name) :
      IsName (⟨.ident, true⟩ :: ⟨.dot, true⟩ :: name)

/-- `string | integer | decimal | ident ('.' ident)*` -/
inductive IsScalar : List Symbol → Prop
  | string (joined : Bool) : IsScalar [⟨.string, joined⟩]
  | integer (joined : Bool) : IsScalar [⟨.integer, joined⟩]
  | decimal (joined : Bool) : IsScalar [⟨.decimal, joined⟩]
  | name {name : List Symbol} (h : IsName name) : IsScalar name

/-- `(scalar (',' scalar)* ','?)?` -/
inductive IsElements : List Symbol → Prop
  | none : IsElements []
  | last {element : List Symbol} (h : IsScalar element) : IsElements element
  | more {element others : List Symbol} (h : IsScalar element) (joined : Bool)
      (hothers : IsElements others) : IsElements (element ++ ⟨.comma, joined⟩ :: others)

/-- `scalar | '[' (scalar (',' scalar)* ','?)? ']'` -/
inductive IsValue : List Symbol → Prop
  | scalar {value : List Symbol} (h : IsScalar value) : IsValue value
  | list {elements : List Symbol} (i j : Bool) (h : IsElements elements) :
      IsValue (⟨.leftBracket, i⟩ :: (elements ++ [⟨.rightBracket, j⟩]))

/-! ## Properties -/

mutual

/-- `ident ':' (value newline | newline block?)` -/
inductive IsProperty : List Symbol → Prop
  | inline {value : List Symbol} (i j k : Bool) (h : IsValue value) :
      IsProperty (⟨.ident, i⟩ :: ⟨.colon, j⟩ :: (value ++ [⟨.newline, k⟩]))
  | bare (i j k : Bool) : IsProperty [⟨.ident, i⟩, ⟨.colon, j⟩, ⟨.newline, k⟩]
  | nested {block : List Symbol} (i j k : Bool) (h : IsBlock block) :
      IsProperty (⟨.ident, i⟩ :: ⟨.colon, j⟩ :: ⟨.newline, k⟩ :: block)

/-- `indent (property | '-' property | '-' value newline)* dedent` -/
inductive IsBlock : List Symbol → Prop
  | enclosed {members : List Symbol} (i j : Bool) (h : IsMembers members) :
      IsBlock (⟨.indent, i⟩ :: (members ++ [⟨.dedent, j⟩]))

/-- `(property | '-' property | '-' value newline)*` -/
inductive IsMembers : List Symbol → Prop
  | none : IsMembers []
  | property {property others : List Symbol} (h : IsProperty property)
      (hothers : IsMembers others) : IsMembers (property ++ others)
  | itemProperty {property others : List Symbol} (i : Bool) (h : IsProperty property)
      (hothers : IsMembers others) : IsMembers (⟨.dash, i⟩ :: (property ++ others))
  | itemValue {value others : List Symbol} (i k : Bool) (h : IsValue value)
      (hothers : IsMembers others) :
      IsMembers (⟨.dash, i⟩ :: (value ++ ⟨.newline, k⟩ :: others))

end

/-- `property?` -/
def IsFile (s : List Symbol) : Prop :=
  s = [] ∨ IsProperty s

theorem IsMembers.append : ∀ {members others : List Symbol},
    IsMembers members → IsMembers others → IsMembers (members ++ others)
  | _, _, .none, h => h
  | _, _, .property hproperty hmembers, h => by
      rw [List.append_assoc]
      exact .property hproperty (hmembers.append h)
  | _, _, .itemProperty i hproperty hmembers, h => by
      rw [List.cons_append, List.append_assoc]
      exact .itemProperty i hproperty (hmembers.append h)
  | _, _, .itemValue i k hvalue hmembers, h => by
      rw [List.cons_append, List.append_assoc]
      exact .itemValue i k hvalue (hmembers.append h)

theorem IsProperty.isMembers {property : List Symbol} (h : IsProperty property) :
    IsMembers property := by
  have hmembers := IsMembers.property h .none
  rwa [List.append_nil] at hmembers

/-! ## First symbols -/

theorem IsName.head {name : List Symbol} (h : IsName name) :
    ∃ joined rest, name = ⟨.ident, joined⟩ :: rest := by
  cases h with
  | ident joined => exact ⟨joined, [], rfl⟩
  | dotted => exact ⟨true, _, rfl⟩

/-- The kinds that scalars begin with. -/
def BeginsScalar (kind : SyntaxKind) : Prop :=
  kind = .string ∨ kind = .integer ∨ kind = .decimal ∨ kind = .ident

theorem IsScalar.head {scalar : List Symbol} (h : IsScalar scalar) :
    ∃ first rest, scalar = first :: rest ∧ BeginsScalar first.kind := by
  cases h with
  | string joined => exact ⟨_, [], rfl, .inl rfl⟩
  | integer joined => exact ⟨_, [], rfl, .inr (.inl rfl)⟩
  | decimal joined => exact ⟨_, [], rfl, .inr (.inr (.inl rfl))⟩
  | name hname =>
      obtain ⟨joined, rest, rfl⟩ := hname.head
      exact ⟨_, rest, rfl, .inr (.inr (.inr rfl))⟩

theorem IsValue.head {value : List Symbol} (h : IsValue value) :
    ∃ first rest, value = first :: rest ∧
      (BeginsScalar first.kind ∨ first.kind = .leftBracket) := by
  cases h with
  | scalar hscalar =>
      obtain ⟨first, rest, rfl, hfirst⟩ := hscalar.head
      exact ⟨first, rest, rfl, .inl hfirst⟩
  | list => exact ⟨_, _, rfl, .inr rfl⟩

theorem IsProperty.head {property : List Symbol} (h : IsProperty property) :
    ∃ i j rest, property = ⟨.ident, i⟩ :: ⟨.colon, j⟩ :: rest := by
  cases h with
  | inline i j => exact ⟨i, j, _, rfl⟩
  | bare i j => exact ⟨i, j, _, rfl⟩
  | nested i j => exact ⟨i, j, _, rfl⟩

/-- A value that begins with an identifier goes on with a dot, if at all. -/
theorem IsValue.eq_nil_or_dot {first : Symbol} {rest : List Symbol}
    (h : IsValue (first :: rest)) (hfirst : first.kind = .ident) :
    rest = [] ∨ ∃ dot more, rest = dot :: more ∧ dot.kind = .dot := by
  cases h with
  | scalar hscalar =>
      cases hscalar with
      | string | integer | decimal => exact .inl rfl
      | name hname =>
          cases hname with
          | ident => exact .inl rfl
          | dotted => exact .inr ⟨_, _, rfl, rfl⟩
  | list => cases hfirst

/-- What stands behind a property neither ends a line nor opens a block. -/
def EndsProperty (behind : List Symbol) : Prop :=
  ∀ s ∈ behind.head?, s.kind ≠ .newline ∧ s.kind ≠ .indent

theorem IsMembers.endsProperty {members behind : List Symbol} (h : IsMembers members)
    (joined : Bool) : EndsProperty (members ++ ⟨.dedent, joined⟩ :: behind) := by
  intro s hs
  cases h with
  | none =>
      obtain rfl : _ = s := by simpa using hs
      exact ⟨SyntaxKind.noConfusion, SyntaxKind.noConfusion⟩
  | property hproperty =>
      obtain ⟨i, j, rest, rfl⟩ := hproperty.head
      obtain rfl : _ = s := by simpa using hs
      exact ⟨SyntaxKind.noConfusion, SyntaxKind.noConfusion⟩
  | itemProperty | itemValue =>
      obtain rfl : _ = s := by simpa using hs
      exact ⟨SyntaxKind.noConfusion, SyntaxKind.noConfusion⟩

/-! ## Layout -/

/-- The symbols follow the layout of lines. -/
def LaidOut (front : Bool) (depth : Nat) (s : List Symbol) : Prop :=
  Nesting.Follows front depth (s.map Symbol.kind)

variable {front : Bool} {depth : Nat} {behind : List Symbol}

theorem IsName.laidOut {name : List Symbol} (h : IsName name)
    (hall : LaidOut front depth (name ++ behind)) : LaidOut false depth behind := by
  induction h generalizing front with
  | ident => exact hall
  | dotted _ ih => exact ih hall

theorem IsScalar.laidOut {scalar : List Symbol} (h : IsScalar scalar)
    (hall : LaidOut front depth (scalar ++ behind)) : LaidOut false depth behind := by
  cases h with
  | string | integer | decimal => exact hall
  | name hname => exact hname.laidOut hall

theorem IsElements.laidOut {elements : List Symbol} (h : IsElements elements)
    (hall : LaidOut false depth (elements ++ behind)) : LaidOut false depth behind := by
  induction h with
  | none => exact hall
  | last hscalar => exact hscalar.laidOut hall
  | more hscalar joined _ ih =>
      rw [List.append_assoc] at hall
      have hcomma := hscalar.laidOut hall
      exact ih hcomma

theorem IsValue.laidOut {value : List Symbol} (h : IsValue value)
    (hall : LaidOut front depth (value ++ behind)) : LaidOut false depth behind := by
  cases h with
  | scalar hscalar => exact hscalar.laidOut hall
  | list i j helements =>
      rw [List.cons_append, List.append_assoc] at hall
      have hinside : LaidOut false depth _ := hall
      have hbracket := helements.laidOut hinside
      exact hbracket

theorem LaidOut.of_newline {joined : Bool}
    (h : LaidOut false depth (⟨.newline, joined⟩ :: behind)) : LaidOut true depth behind :=
  h.2

theorem LaidOut.of_indent {joined : Bool}
    (h : LaidOut front depth (⟨.indent, joined⟩ :: behind)) :
    LaidOut true (depth + 1) behind :=
  h.2

theorem LaidOut.of_dedent {joined : Bool}
    (h : LaidOut front (depth + 1) (⟨.dedent, joined⟩ :: behind)) :
    LaidOut true depth behind := by
  obtain ⟨-, outer, houter, hbehind⟩ := h
  obtain rfl : depth = outer := Nat.succ.inj houter
  exact hbehind

theorem LaidOut.not_nil : ¬ LaidOut false depth [] :=
  fun h => Bool.noConfusion h.1

/-- No line is empty. -/
theorem LaidOut.not_newline (h : LaidOut true depth behind) :
    ∀ s ∈ behind.head?, s.kind ≠ .newline := by
  intro s hs hkind
  obtain ⟨more, rfl⟩ := List.head?_eq_some_iff.mp hs
  obtain ⟨kind, joined⟩ := s
  obtain rfl : kind = .newline := hkind
  exact Bool.noConfusion h.1

mutual

theorem IsProperty.laidOut {front : Bool} : ∀ {property behind : List Symbol} {depth : Nat},
    IsProperty property → LaidOut front depth (property ++ behind) → LaidOut true depth behind
  | _, _, depth, .inline i j k hvalue, hall => by
      rw [List.cons_append, List.cons_append, List.append_assoc] at hall
      have hline : LaidOut false depth _ := hall
      exact (hvalue.laidOut hline).of_newline
  | _, _, depth, .bare i j k, hall => by
      have hline : LaidOut false depth (⟨.newline, k⟩ :: _) := hall
      exact hline.of_newline
  | _, _, depth, .nested i j k hblock, hall => by
      have hline : LaidOut false depth (⟨.newline, k⟩ :: _) := hall
      exact hblock.laidOut hline.of_newline

theorem IsBlock.laidOut : ∀ {block behind : List Symbol} {depth : Nat},
    IsBlock block → LaidOut true depth (block ++ behind) → LaidOut true depth behind
  | _, _, _, .enclosed i j hmembers, hall => by
      rw [List.cons_append, List.append_assoc] at hall
      exact (hmembers.laidOut hall.of_indent).of_dedent

theorem IsMembers.laidOut : ∀ {members behind : List Symbol} {depth : Nat},
    IsMembers members → LaidOut true depth (members ++ behind) → LaidOut true depth behind
  | _, _, _, .none, hall => hall
  | _, _, _, .property hproperty hothers, hall => by
      rw [List.append_assoc] at hall
      exact hothers.laidOut (hproperty.laidOut hall)
  | _, _, depth, .itemProperty i hproperty hothers, hall => by
      rw [List.cons_append, List.append_assoc] at hall
      have hitem : LaidOut false depth _ := hall
      exact hothers.laidOut (hproperty.laidOut hitem)
  | _, _, depth, .itemValue i k hvalue hothers, hall => by
      rw [List.cons_append, List.append_assoc] at hall
      have hitem : LaidOut false depth _ := hall
      exact hothers.laidOut (hvalue.laidOut hitem).of_newline

end

end Language
end ModelWorkspace
