import ModelWorkspace.Tree.Grammar

/-!
# Outlines

The outline of a concrete tree: its properties and list items with their keys,
values and nested members, without trivia, marks of layout and `error` nodes.
It is all that the rest of the library asks of a tree.  Every part keeps the
range that it takes in the text.
-/

namespace ModelWorkspace

/-- How a scalar is written. -/
inductive ScalarStyle where
  | name (segments : List String)
  | text
  | number
deriving DecidableEq, Repr, Inhabited

/-- A single value, with quotes and escapes removed from its text. -/
structure Scalar where
  range : TextRange
  text : String
  style : ScalarStyle
deriving DecidableEq, Repr, Inhabited

/-- The value written behind a key or a dash. -/
inductive Value where
  | scalar (scalar : Scalar)
  | list (range : TextRange) (items : List Scalar)
deriving DecidableEq, Repr

/-- A property or a list item.  The members of a property are those of its nested
block, if it has one; the members of an item are its properties. -/
inductive Member where
  | property (range : TextRange) (key : String) (keyRange : TextRange)
      (value : Option Value) (block : Option TextRange) (members : List Member)
  | item (range : TextRange) (value : Option Value) (members : List Member)
deriving Repr, Inhabited

namespace Value

/-- The range of a value. -/
def range : Value → TextRange
  | .scalar s => s.range
  | .list range _ => range

/-- The scalars of a value: itself, or the elements of the list. -/
def scalars : Value → List Scalar
  | .scalar s => [s]
  | .list _ items => items

end Value

namespace Outline

/-- Trees that stand side by side, each with the offset of its first byte. -/
def placed (start : Nat) : List Tree → List (Nat × Tree)
  | [] => []
  | t :: ts => (start, t) :: placed (start + t.width) ts

theorem placed_append (start : Nat) (ts us : List Tree) :
    placed start (ts ++ us) = placed start ts ++ placed (start + Tree.totalWidth ts) us := by
  induction ts generalizing start with
  | nil => rfl
  | cons t ts ih => rw [List.cons_append, placed, ih, placed, Tree.totalWidth, Nat.add_assoc,
      List.cons_append]

/-- The range of a tree that stands at `start`. -/
def rangeAt (start : Nat) (t : Tree) : TextRange :=
  TextRange.ofWidth start t.width

/-- The token of a leaf. -/
def token? : Tree → Option Token
  | .leaf token => some token
  | .node _ _ => none

/-- The text inside a quoted string whose opening quote is gone: `\n` and `\t`
stand for a line end and a tab, and a backslash before another character for
that character.  The last quote closes the string. -/
def unescape : List Char → List Char
  | [] => []
  | ['\\'] => []
  | '\\' :: c :: cs =>
    (if c = 'n' then '\n' else if c = 't' then '\t' else c) :: unescape cs
  | c :: cs => c :: unescape cs

/-- The text that a quoted string stands for. -/
def unquote (raw : List Char) : List Char :=
  let inner :=
    match raw with
    | '"' :: cs => if cs.getLast? = some '"' then cs.dropLast else cs
    | cs => cs
  unescape inner

/-- The children of a dotted name, if the tree is one. -/
def nameParts? : Tree → Option (List Tree)
  | .node .qualifiedName children => some children
  | _ => none

/-- The segments of a dotted name, from its children. -/
def segments (children : List Tree) : List String :=
  (children.filterMap token?).filterMap fun t =>
    if t.kind = .ident then some t.text else none

/-- The scalar that stands at `start`, from its children. -/
def scalarOf (start : Nat) (children : List Tree) : Scalar :=
  let range := TextRange.ofWidth start (Tree.totalWidth children)
  match children.findSome? nameParts? with
  | some parts =>
    let names := segments parts
    ⟨range, ".".intercalate names, .name names⟩
  | none =>
    match (children.filterMap token?).find? (·.kind.isLiteral) with
    | some t =>
      if t.kind = .string then ⟨range, String.ofList (unquote t.chars), .text⟩
      else if t.kind = .ident then ⟨range, t.text, .name [t.text]⟩
      else ⟨range, t.text, .number⟩
    | none => ⟨range, "", .name []⟩

/-- The scalar at a place, if the tree there is one. -/
def scalar? : Nat × Tree → Option Scalar
  | (start, .node .scalar children) => some (scalarOf start children)
  | _ => none

/-- The value at a place, if the tree there is one. -/
def value? : Nat × Tree → Option Value
  | (start, .node .scalar children) => some (.scalar (scalarOf start children))
  | (start, .node .listValue children) =>
    some (.list (TextRange.ofWidth start (Tree.totalWidth children))
      ((placed start children).filterMap scalar?))
  | _ => none

/-- The range of a block at a place, if the tree there is one. -/
def block? : Nat × Tree → Option TextRange
  | (start, .node .block children) =>
    some (TextRange.ofWidth start (Tree.totalWidth children))
  | _ => none

/-- The key of a property and its range, from the property's children. -/
def key? (children : List (Nat × Tree)) : Option (String × TextRange) :=
  children.findSome? fun (start, t) =>
    match t with
    | .leaf token => if token.kind = .ident then some (token.text, rangeAt start t) else none
    | .node _ _ => none

mutual

/-- The member that a tree at `start` is, if it is one. -/
def member (start : Nat) : Tree → List Member
  | .node .property children =>
    let inside := placed start children
    match key? inside with
    | some (key, keyRange) =>
      [.property (TextRange.ofWidth start (Tree.totalWidth children)) key keyRange
        (inside.findSome? value?) (inside.findSome? block?) (firstBlock start children)]
    | none => []
  | .node .listItem children =>
    [.item (TextRange.ofWidth start (Tree.totalWidth children))
      ((placed start children).findSome? value?) (members start children)]
  | _ => []
termination_by structural t => t

/-- The members among trees that stand side by side. -/
def members (start : Nat) : List Tree → List Member
  | [] => []
  | t :: ts => member start t ++ members (start + t.width) ts
termination_by structural ts => ts

/-- The members of the first block among trees that stand side by side. -/
def firstBlock (start : Nat) : List Tree → List Member
  | [] => []
  | t :: ts =>
    match block? (start, t) with
    | some _ => blockMembers start t
    | none => firstBlock (start + t.width) ts
termination_by structural ts => ts

/-- The members of a block. -/
def blockMembers (start : Nat) : Tree → List Member
  | .node _ children => members start children
  | .leaf _ => []
termination_by structural t => t

end

/-- The members at the top of a file. -/
def ofTree : Tree → List Member
  | .node _ children => members 0 children
  | .leaf _ => []

end Outline

end ModelWorkspace
