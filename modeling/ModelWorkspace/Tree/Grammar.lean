import ModelWorkspace.Tree.Basic

/-!
# The grammar of properties and blocks

    file     = property
    property = ident ':' (value newline | newline block?)
    block    = indent (property | item)* dedent
    item     = '-' (property property* | value newline)
    value    = scalar | '[' (scalar (',' scalar)* ','?)? ']'
    scalar   = string | integer | decimal | ident ('.' ident)*

Every rule reads from the front of the remaining tokens and answers with the
trees that it built, what it had to report, and the tokens that are left; the
answer carries the proof that no token was added, which is what makes the rules
terminate.  No input is refused: what does not fit is reported and kept in an
`error` node, and reading goes on with the next line.  Trivia is kept where it
stands.

Rules for constructs that begin with a certain token take that token, already
read, as an argument of its own.

Reading may be called off.  The rules for properties and blocks look for that before
each property and each member; once they have found it they read nothing more, and
what is left becomes leaves of the file.
-/

namespace ModelWorkspace

/-- A report on text that does not fit the grammar. -/
structure SyntaxError where
  message : String
  range : TextRange
deriving DecidableEq, Repr, Inhabited

/-- Whether a reading is called off. -/
inductive Signal where
  /-- It never is. -/
  | never
  /-- It will be, behind this many more looks. -/
  | after (looks : Nat)
  /-- It is, and a look has found that. -/
  | noticed
deriving DecidableEq, Repr, Inhabited

namespace Signal

/-- Whether a look finds that the reading is called off. -/
def stops : Signal → Bool
  | never => false
  | after looks => looks == 0
  | noticed => true

/-- The signal behind a look. -/
def next : Signal → Signal
  | never => never
  | after 0 => noticed
  | after (looks + 1) => after looks
  | noticed => noticed

end Signal

/-- What a rule makes of the tokens in front of it. -/
structure Reading (tokens : List Token) where
  trees : List Tree
  errors : List SyntaxError
  rest : List Token
  rest_length_le : rest.length ≤ tokens.length

namespace Reading

/-- Nothing is read. -/
def nothing (tokens : List Token) : Reading tokens :=
  ⟨[], [], tokens, Nat.le_refl _⟩

/-- The first token becomes a leaf in front of what is read behind it. -/
def withLeaf {tokens : List Token} (first : Token) (r : Reading tokens) :
    Reading (first :: tokens) :=
  ⟨.leaf first :: r.trees, r.errors, r.rest, Nat.le_succ_of_le r.rest_length_le⟩

/-- A reading of what follows the first token, which the trees already hold. -/
def behind {tokens : List Token} (first : Token) (r : Reading tokens) :
    Reading (first :: tokens) :=
  ⟨r.trees, r.errors, r.rest, Nat.le_succ_of_le r.rest_length_le⟩

/-- One reading after the other. -/
def append {tokens : List Token} (r : Reading tokens) (next : Reading r.rest) :
    Reading tokens :=
  ⟨r.trees ++ next.trees, r.errors ++ next.errors, next.rest,
    Nat.le_trans next.rest_length_le r.rest_length_le⟩

/-- One reading after the other, where what the first one left is known. -/
def followedBy {tokens left : List Token} (r : Reading tokens) (h : r.rest = left)
    (next : Reading left) : Reading tokens :=
  ⟨r.trees ++ next.trees, r.errors ++ next.errors, next.rest,
    Nat.le_trans next.rest_length_le (h ▸ r.rest_length_le)⟩

/-- All trees become the children of one node. -/
def wrap {tokens : List Token} (kind : SyntaxKind) (r : Reading tokens) : Reading tokens :=
  { r with trees := [.node kind r.trees] }

/-- All trees, behind the given token, become the children of one node. -/
def wrapFrom {tokens : List Token} (kind : SyntaxKind) (first : Token)
    (r : Reading tokens) : Reading tokens :=
  { r with trees := [.node kind (.leaf first :: r.trees)] }

/-- A report in front of the others. -/
def report {tokens : List Token} (message : String) (range : TextRange)
    (r : Reading tokens) : Reading tokens :=
  { r with errors := ⟨message, range⟩ :: r.errors }

/-- A token that is read becomes a leaf of its own. -/
def keyAlone (key : Token) (tokens : List Token) : Reading tokens :=
  ⟨[.leaf key], [], tokens, Nat.le_refl _⟩

/-- All tokens become leaves. -/
def leaves (tokens : List Token) : Reading tokens :=
  ⟨tokens.map .leaf, [], [], Nat.zero_le _⟩

end Reading

/-- What a rule makes of the tokens in front of it, with the signal behind it. -/
structure Guarded (tokens : List Token) extends Reading tokens where
  signal : Signal

namespace Guarded

/-- The same signal behind a reading made of another one. -/
def lift {tokens others : List Token} (g : Guarded tokens)
    (f : Reading tokens → Reading others) : Guarded others :=
  ⟨f g.toReading, g.signal⟩

/-- One reading after the other. -/
def append {tokens : List Token} (g : Guarded tokens) (next : Guarded g.rest) :
    Guarded tokens :=
  ⟨g.toReading.append next.toReading, next.signal⟩

end Guarded

/-- A reading that leaves the signal as it is. -/
def Reading.guarded {tokens : List Token} (r : Reading tokens) (signal : Signal) :
    Guarded tokens :=
  ⟨r, signal⟩

namespace Grammar

/-- The kind of the next token that is not trivia. -/
def nextKind? (tokens : List Token) : Option SyntaxKind :=
  (tokens.find? fun t => !t.kind.isTrivia).map Token.kind

/-- Whether a value can begin with a token of this kind. -/
def beginsValue : SyntaxKind → Bool
  | .ident | .string | .integer | .decimal | .leftBracket => true
  | _ => false

/-- The range that a report on the next token covers: the token, or at the end
of the text the place `stop` behind the last one. -/
def here (stop : Nat) : List Token → TextRange
  | [] => TextRange.empty stop
  | t :: _ => t.range

/-- Reads tokens as long as their kinds pass. -/
def skip (passes : SyntaxKind → Bool) : (tokens : List Token) → Reading tokens
  | [] => .nothing []
  | t :: ts => if passes t.kind then (skip passes ts).withLeaf t else .nothing (t :: ts)

/-- Reads blanks and comments. -/
def trivia (tokens : List Token) : Reading tokens :=
  skip SyntaxKind.isTrivia tokens

/-- Reads blanks, comments and line ends. -/
def blank (tokens : List Token) : Reading tokens :=
  skip SyntaxKind.isSkipped tokens

/-- Reads a line end if it comes next. -/
def lineEnd : (tokens : List Token) → Reading tokens
  | [] => .nothing []
  | t :: ts => if t.kind = .newline then (Reading.nothing ts).withLeaf t else .nothing (t :: ts)

/-- An `error` node from the token `first` to the end of its line. -/
def errorFrom (first : Token) (tokens : List Token) : Reading tokens :=
  (skip (fun kind => !kind.isLayout) tokens).wrapFrom .error first

/-- Reports the next token and sets the rest of the line aside in an `error` node.
Of the marks of layout it takes one at most, and never the end of a block. -/
def recover (stop : Nat) (message : String) (tokens : List Token) : Reading tokens :=
  let node : Reading tokens :=
    match tokens with
    | [] => (Reading.nothing []).wrap .error
    | t :: ts =>
      if t.kind = .dedent then (Reading.nothing (t :: ts)).wrap .error
      else if t.kind.isLayout then ((Reading.nothing ts).wrapFrom .error t).behind t
      else (errorFrom t ts).behind t
  node.report message (here stop tokens)

/-- Sets the rest of the line aside, its end included. -/
def recoverLine (stop : Nat) (message : String) (tokens : List Token) : Reading tokens :=
  let set := recover stop message tokens
  set.append (lineEnd set.rest)

/-- The further segments of a dotted name.  Nothing may stand between them. -/
def nameTail (stop : Nat) : (tokens : List Token) → Reading tokens
  | dot :: ident :: ts =>
    if dot.kind = .dot then
      if ident.kind = .ident then ((nameTail stop ts).withLeaf ident).withLeaf dot
      else ((Reading.nothing (ident :: ts)).withLeaf dot).report
        "expected identifier after '.'" ident.range
    else
      .nothing (dot :: ident :: ts)
  | [dot] =>
    if dot.kind = .dot then ((Reading.nothing []).withLeaf dot).report
      "expected identifier after '.'" (TextRange.empty stop)
    else .nothing [dot]
  | [] => .nothing []

/-- The scalar that begins with `first`. -/
def scalar (stop : Nat) (first : Token) (tokens : List Token) : Reading tokens :=
  if first.kind = .ident then
    ((nameTail stop tokens).wrapFrom .qualifiedName first).wrap .scalar
  else
    (Reading.nothing tokens).wrapFrom .scalar first

/-- An element of an inline list, which begins with `first`. -/
def listElement (stop : Nat) (first : Token) (tokens : List Token) : Reading tokens :=
  if beginsValue first.kind && first.kind != .leftBracket then
    scalar stop first tokens
  else
    ((Reading.nothing tokens).wrapFrom .error first).report
      "expected a value in list" first.range

/-- The elements of an inline list, up to its closing bracket, the end of the line
or the first one that no comma follows. -/
def listElements (stop : Nat) (tokens : List Token) : Reading tokens :=
  match tokens with
  | [] => .nothing []
  | t :: ts =>
    if t.kind = .rightBracket ∨ t.kind = .newline then
      .nothing (t :: ts)
    else
      let element := listElement stop t ts
      let spaced := element.append (trivia element.rest)
      match h : spaced.rest with
      | [] => spaced.behind t
      | comma :: more =>
        if comma.kind = .comma then
          let space := trivia more
          have : space.rest.length < (t :: ts).length := by
            have before := spaced.rest_length_le
            have behind := space.rest_length_le
            rw [h] at before
            simp only [List.length_cons] at before ⊢
            omega
          (spaced.followedBy h
            ((space.append (listElements stop space.rest)).withLeaf comma)).behind t
        else
          spaced.behind t
termination_by tokens.length
decreasing_by exact this

/-- The bracket that closes an inline list. -/
def closingBracket (stop : Nat) : (tokens : List Token) → Reading tokens
  | [] => (Reading.nothing []).report "expected ']'" (TextRange.empty stop)
  | t :: ts =>
    if t.kind = .rightBracket then (Reading.nothing ts).withLeaf t
    else (Reading.nothing (t :: ts)).report "expected ']'" t.range

/-- The value that begins with `first`. -/
def value (stop : Nat) (first : Token) (tokens : List Token) : Reading tokens :=
  if first.kind = .leftBracket then
    let space := trivia tokens
    let elements := space.append (listElements stop space.rest)
    (elements.append (closingBracket stop elements.rest)).wrapFrom .listValue first
  else
    scalar stop first tokens

mutual

/-- The end of a line behind a value. -/
def valueEnd (stop : Nat) (signal : Signal) (tokens : List Token) : Guarded tokens :=
  let space := trivia tokens
  match h : space.rest with
  | [] => space.guarded signal
  | t :: ts =>
    have : ts.length < tokens.length := by
      have := space.rest_length_le; rw [h] at this; exact this
    if t.kind = .newline then
      (space.followedBy h ((Reading.nothing ts).withLeaf t)).guarded signal
    else if t.kind = .dedent then
      space.guarded signal
    else if t.kind = .indent then
      (members stop signal ts).lift fun block =>
        space.followedBy h ((((block.wrapFrom .block t).wrap .error).behind t).report
          "unexpected indentation after an inline value" t.range)
    else
      (space.followedBy h
        (recoverLine stop "unexpected input after value" (t :: ts))).guarded signal
termination_by 2 * tokens.length

/-- What follows the colon of a property. -/
def propertyValue (stop : Nat) (signal : Signal) (tokens : List Token) : Guarded tokens :=
  let space := trivia tokens
  match h : space.rest with
  | [] => space.guarded signal
  | t :: ts =>
    have : ts.length < tokens.length := by
      have := space.rest_length_le; rw [h] at this; exact this
    if t.kind = .newline then
      let lines := blank ts
      match h' : lines.rest with
      | [] => (space.followedBy h (lines.withLeaf t)).guarded signal
      | first :: more =>
        if first.kind = .indent then
          have : more.length < tokens.length := by
            have := lines.rest_length_le; rw [h'] at this; simp at this; omega
          (members stop signal more).lift fun block =>
            space.followedBy h
              ((lines.followedBy h' ((block.wrapFrom .block first).behind first)).withLeaf t)
        else
          (space.followedBy h (lines.withLeaf t)).guarded signal
    else if beginsValue t.kind then
      let v := value stop t ts
      have : v.rest.length < tokens.length := by have := v.rest_length_le; omega
      (valueEnd stop signal v.rest).lift fun line =>
        space.followedBy h ((v.append line).behind t)
    else
      (space.followedBy h
        (recoverLine stop "expected a value or a nested block" (t :: ts))).guarded signal
termination_by 2 * tokens.length

/-- The property whose key is `key`. -/
def property (stop : Nat) (signal : Signal) (key : Token) (tokens : List Token) :
    Guarded tokens :=
  let space := trivia tokens
  match h : space.rest with
  | [] =>
    ((space.followedBy h (recoverLine stop "expected ':' after property name" [])).wrapFrom
      .property key).guarded signal
  | colon :: more =>
    if colon.kind = .colon then
      have : more.length < tokens.length := by
        have := space.rest_length_le; rw [h] at this; exact this
      (propertyValue stop signal more).lift fun value =>
        (space.followedBy h (value.withLeaf colon)).wrapFrom .property key
    else
      ((space.followedBy h
        (recoverLine stop "expected ':' after property name" (colon :: more))).wrapFrom
        .property key).guarded signal
termination_by 2 * tokens.length

/-- The property whose key is `key`, or the key alone if the reading is called off. -/
def propertyOrKey (stop : Nat) (signal : Signal) (key : Token) (tokens : List Token) :
    Guarded tokens :=
  if signal.stops then (Reading.keyAlone key tokens).guarded signal.next
  else property stop signal.next key tokens
termination_by 2 * tokens.length + 1

/-- The further properties of a list item.  Two looks stand before each of them. -/
def itemProperties (stop : Nat) (signal : Signal) (tokens : List Token) : Guarded tokens :=
  let space := blank tokens
  match h : space.rest with
  | [] => space.guarded signal
  | t :: ts =>
    if t.kind = .ident then
      if signal.stops then
        space.guarded signal.next
      else if signal.next.stops then
        space.guarded signal.next.next
      else
        have : ts.length < tokens.length := by
          have := space.rest_length_le; rw [h] at this; exact this
        let first := property stop signal.next.next t ts
        have : first.rest.length < tokens.length := by have := first.rest_length_le; omega
        (first.append (itemProperties stop first.signal first.rest)).lift fun properties =>
          space.followedBy h (properties.behind t)
    else
      space.guarded signal
termination_by 2 * tokens.length

/-- The list item that begins with `dash`. -/
def listItem (stop : Nat) (signal : Signal) (dash : Token) (tokens : List Token) :
    Guarded tokens :=
  let space := trivia tokens
  let body : Guarded tokens :=
    match h : space.rest with
    | [] => space.guarded signal
    | t :: ts =>
      have : ts.length < tokens.length := by
        have := space.rest_length_le; rw [h] at this; exact this
      if t.kind = .ident ∧ nextKind? ts = some .colon then
        if signal.stops then
          space.guarded signal.next
        else
          let first := property stop signal.next t ts
          have : first.rest.length < tokens.length := by have := first.rest_length_le; omega
          (first.append (itemProperties stop first.signal first.rest)).lift fun properties =>
            space.followedBy h (properties.behind t)
      else if beginsValue t.kind then
        let v := value stop t ts
        have : v.rest.length < tokens.length := by have := v.rest_length_le; omega
        (valueEnd stop signal v.rest).lift fun line =>
          space.followedBy h ((v.append line).behind t)
      else if t.kind = .newline then
        (space.followedBy h
          (((Reading.nothing ts).withLeaf t).report "empty list item" t.range)).guarded signal
      else
        (space.followedBy h
          (recoverLine stop "expected a property or value after '-'" (t :: ts))).guarded signal
  body.lift (·.wrapFrom .listItem dash)
termination_by 2 * tokens.length

/-- The members of a block, and the mark that ends it. -/
def members (stop : Nat) (signal : Signal) (tokens : List Token) : Guarded tokens :=
  let space := blank tokens
  match h : space.rest with
  | [] => space.guarded signal
  | t :: ts =>
    have : ts.length < tokens.length := by
      have := space.rest_length_le; rw [h] at this; exact this
    let signal' := signal.next
    if signal.stops then
      space.guarded signal'
    else if t.kind = .dedent then
      (space.followedBy h ((Reading.nothing ts).withLeaf t)).guarded signal'
    else
      let member : Guarded ts :=
        if t.kind = .ident then propertyOrKey stop signal' t ts
        else if t.kind = .dash then listItem stop signal' t ts
        else if t.kind = .indent then
          (members stop signal' ts).lift fun block =>
            ((block.wrapFrom .block t).wrap .error).report "unexpected indentation" t.range
        else
          ((errorFrom t ts).report
            ("expected a property or list item, found " ++ t.kind.name) t.range).guarded signal'
      have : member.rest.length < tokens.length := by have := member.rest_length_le; omega
      (member.append (members stop member.signal member.rest)).lift fun others =>
        space.followedBy h (others.behind t)
termination_by 2 * tokens.length

end

/-- The members of a file, `roots` of which have been properties so far. -/
def fileMembers (stop : Nat) (signal : Signal) (roots : Nat) (tokens : List Token) :
    Guarded tokens :=
  let space := blank tokens
  match h : space.rest with
  | [] => space.guarded signal
  | t :: ts =>
    have : ts.length < tokens.length := by
      have := space.rest_length_le; rw [h] at this; exact this
    let signal' := signal.next
    if signal.stops then
      (space.followedBy h (Reading.leaves (t :: ts))).guarded signal'
    else
      let member : Guarded ts :=
        if t.kind = .ident then
          let root := propertyOrKey stop signal' t ts
          if roots = 1 then
            root.lift (·.report "a file holds exactly one root element" t.range)
          else
            root
        else if t.kind = .indent then
          (members stop signal' ts).lift fun block =>
            ((block.wrapFrom .block t).wrap .error).report "unexpected indentation" t.range
        else if t.kind = .dedent then
          Reading.guarded
            ⟨[.node .error [], .leaf t],
              [⟨"expected a property, found " ++ t.kind.name, t.range⟩], ts, Nat.le_refl _⟩
            signal'
        else
          ((errorFrom t ts).report
            ("expected a property, found " ++ t.kind.name) t.range).guarded signal'
      have : member.rest.length < tokens.length := by have := member.rest_length_le; omega
      let roots := if t.kind = .ident then roots + 1 else roots
      (member.append (fileMembers stop member.signal roots member.rest)).lift fun others =>
        space.followedBy h (others.behind t)
termination_by tokens.length

end Grammar

end ModelWorkspace
