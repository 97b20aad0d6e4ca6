import ModelWorkspace.Token.Layout
import ModelWorkspace.Tree.Outline

/-!
# Parsing a text

Puts the layout and the grammar together.  The tree of a text holds all of its
tokens whatever the text is; what does not fit is reported beside it.

A parse that was called off, and has noticed it, gives no tree.  There is nothing to
notice if the text holds nothing but blanks, comments and line ends: then the parse
is done before it looks.
-/

namespace ModelWorkspace

/-- The tree of a text, with all that was reported on the way. -/
structure Parse where
  tree : Tree
  errors : List SyntaxError
  lexErrors : List LexError
  tokens : List Token
deriving Repr

namespace Parse

/-- Whether nothing was reported. -/
def isClean (parse : Parse) : Bool :=
  parse.errors.isEmpty && parse.lexErrors.isEmpty

/-- The parse of a text whose tokens are known, with the signal behind it; `stop` is the
width of the text. -/
def ofStream (signal : Signal) (stop : Nat) (stream : TokenStream) : Parse × Signal :=
  let members := Grammar.fileMembers stop signal 0 stream.tokens
  ({ tree := .node .sourceFile members.trees
     errors := members.errors
     lexErrors := stream.errors
     tokens := stream.tokens }, members.signal)

/-- The parse of a text, with the signal behind it.  With `completion`, blocks stay open
at the end of the text. -/
def underSignal (signal : Signal) (completion : Bool) (text : String) : Parse × Signal :=
  ofStream signal (byteWidth text.toList) (tokenize completion text)

/-- The parse of a text.  With `completion`, blocks stay open at its end. -/
def ofText (completion : Bool) (text : String) : Parse :=
  (underSignal .never completion text).1

/-- The parse of a text, or `none` if it has noticed that it is called off. -/
def ofTextUntil (signal : Signal) (text : String) : Option Parse :=
  let (parse, behind) := underSignal signal false text
  if behind = .noticed then none else some parse

/-- The parse of a text that may have been called off before it began. -/
def ofTextUnless (cancelled : Bool) (text : String) : Option Parse :=
  ofTextUntil (if cancelled then .after 0 else .never) text

end Parse

end ModelWorkspace
