import ModelWorkspace.Element.Lowering
import ModelWorkspace.Tree.Parse

/-!
# Documents

A document is what the rest of a workspace needs to know of a parsed text: the
kinds and ranges of its tokens, its root element and everything that was
reported.  It refers to nothing outside itself.
-/

namespace ModelWorkspace

/-- The kind and range of a token. -/
structure TokenInfo where
  kind : SyntaxKind
  range : TextRange
deriving DecidableEq, Repr

/-- The result of parsing one text. -/
structure Document where
  tokens : List TokenInfo := []
  root : Option Element := none
  lexErrors : List LexError := []
  syntaxErrors : List SyntaxError := []
deriving Repr, BEq, Inhabited

namespace Document

/-- The document of a parse.  What does not fit the schema is reported behind what
does not fit the grammar. -/
def ofParse (parse : Parse) : Document :=
  let (root, errors) := Lowering.root (Outline.ofTree parse.tree)
  { tokens := parse.tokens.map fun t => ⟨t.kind, t.range⟩
    root := root
    lexErrors := parse.lexErrors
    syntaxErrors := parse.errors ++ errors }

/-- The document of a text. -/
def ofText (text : String) : Document :=
  ofParse (Parse.ofText false text)

/-- The document of a text that stops where a user is typing. -/
def ofUnfinishedText (text : String) : Document :=
  ofParse (Parse.ofText true text)

/-- The document of a text, or `none` if the parse was called off before it began. -/
def ofTextUnless (cancelled : Bool) (text : String) : Option Document :=
  if cancelled then none else some (ofText text)

/-- Whether anything was reported. -/
def hasErrors (d : Document) : Bool :=
  !d.lexErrors.isEmpty || !d.syntaxErrors.isEmpty

end Document

end ModelWorkspace
