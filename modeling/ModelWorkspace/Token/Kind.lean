/-!
# Kinds of tokens and tree nodes

The closed set of kinds that the leaves and the inner nodes of a concrete tree
can have.  Leaves are trivia (blanks and comments), layout (line ends and the
two marks of indentation, which take no text), literals and punctuation; nodes
are the constructs of the grammar.  `error` is used for both.  `last` closes the list:
it is the kind of no leaf and no node of a tree, but it has a name and a number, and
a transferred document may hold it.
-/

namespace ModelWorkspace

/-- The kind of a token or of a tree node. -/
inductive SyntaxKind where
  | whitespace
  | comment
  | newline
  | indent
  | dedent
  | ident
  | integer
  | decimal
  | string
  | colon
  | dot
  | comma
  | dash
  | leftBracket
  | rightBracket
  | error
  | sourceFile
  | property
  | block
  | listItem
  | scalar
  | listValue
  | qualifiedName
  | last
deriving DecidableEq, Repr, Inhabited

namespace SyntaxKind

/-- All kinds, in the order of their numbers. -/
def all : List SyntaxKind :=
  [whitespace, comment, newline, indent, dedent, ident, integer, decimal, string, colon, dot,
    comma, dash, leftBracket, rightBracket, error, sourceFile, property, block, listItem, scalar,
    listValue, qualifiedName, last]

/-- The kinds that leaves and nodes of a tree have. -/
def used : List SyntaxKind :=
  all.filter (· ≠ last)

/-- The name of a kind in messages and in transferred documents. -/
def name : SyntaxKind → String
  | whitespace => "WHITESPACE"
  | comment => "LINE_COMMENT"
  | newline => "NEWLINE"
  | indent => "INDENT"
  | dedent => "DEDENT"
  | ident => "IDENT"
  | integer => "INTEGER"
  | decimal => "DECIMAL"
  | string => "STRING"
  | colon => "COLON"
  | dot => "DOT"
  | comma => "COMMA"
  | dash => "DASH"
  | leftBracket => "L_BRACKET"
  | rightBracket => "R_BRACKET"
  | error => "ERROR"
  | sourceFile => "SOURCE_FILE"
  | property => "PROPERTY"
  | block => "BLOCK"
  | listItem => "LIST_ITEM"
  | scalar => "SCALAR"
  | listValue => "LIST_VALUE"
  | qualifiedName => "QUALIFIED_NAME"
  | last => "__LAST"

/-- The kind that has a given name. -/
def ofName? (name : String) : Option SyntaxKind :=
  all.find? (·.name == name)

/-- The number of a kind: its place among all kinds. -/
def number (kind : SyntaxKind) : Nat :=
  all.idxOf kind

/-- Blanks and comments, which the grammar skips. -/
def isTrivia : SyntaxKind → Bool
  | whitespace | comment => true
  | _ => false

/-- The tokens that give lines and their nesting. -/
def isLayout : SyntaxKind → Bool
  | newline | indent | dedent => true
  | _ => false

/-- The tokens that stand for no text. -/
def isSynthetic : SyntaxKind → Bool
  | indent | dedent => true
  | _ => false

/-- Punctuation characters. -/
def isPunctuation : SyntaxKind → Bool
  | colon | dot | comma | dash | leftBracket | rightBracket => true
  | _ => false

/-- Tokens that stand for a value of their own. -/
def isLiteral : SyntaxKind → Bool
  | ident | integer | decimal | string => true
  | _ => false

/-- Trivia and line ends: what may be skipped between the members of a block. -/
def isSkipped (kind : SyntaxKind) : Bool :=
  kind.isTrivia || kind == newline

theorem ofName?_name (kind : SyntaxKind) : ofName? kind.name = some kind := by
  cases kind <;> decide

end SyntaxKind

end ModelWorkspace
