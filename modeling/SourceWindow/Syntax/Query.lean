import SourceWindow.Grammar
import SourceWindow.Literal
import SourceWindow.Syntax.Tree

set_option autoImplicit false

namespace SourceWindow

def NodeName.text : NodeName → Text
  | .document => Text.ofString "document"
  | .string => Text.ofString "string"
  | .templateString => Text.ofString "template_string"
  | .templateType => Text.ofString "template_literal_type"
  | .element => Text.ofString "element"
  | .stringLiteral => Text.ofString "string_literal"
  | .rawStringLiteral => Text.ofString "raw_string_literal"
  | .interpretedStringLiteral => Text.ofString "interpreted_string_literal"
  | .rawString => Text.ofString "raw_string"
  | .other => Text.ofString "other"

structure Pattern where
  name : NodeName
  kind : LiteralKind
  deriving DecidableEq, Repr

def Pattern.text (p : Pattern) : Text :=
  let capture := match p.kind with
    | .string => Text.ofString "@literal.string"
    | .template => Text.ofString "@literal.template"
  ['('] ++ p.name.text ++ [')', ' '] ++ capture

abbrev Query := List Pattern

namespace Query

def text (q : Query) : Text := Text.join ['\n'] (q.map Pattern.text)

def kind? (q : Query) (name : NodeName) : Option LiteralKind :=
  (q.find? (·.name == name)).map (·.kind)

def literals (q : Query) (tree : SyntaxTree) : List LiteralSpan :=
  tree.preorder.filterMap fun n => (q.kind? n.name).map fun kind => ⟨n.start, n.stop, kind⟩

end Query

namespace Grammar

def literalNames : Grammar → List NodeName
  | .javascript | .typescript | .tsx => [.string, .templateString]
  | .python | .json => [.string]
  | .rust | .cpp => [.stringLiteral, .rawStringLiteral]
  | .go => [.interpretedStringLiteral, .rawStringLiteral]
  | .bash => [.string, .rawString]

def query (g : Grammar) : Query :=
  g.literalNames.map fun name => ⟨name, if name = .templateString then .template else .string⟩

end Grammar

/-- A node name of a query that the grammar lacks, and the row of its pattern, from one. -/
structure UnknownNode where
  row : Nat
  name : NodeName
  deriving DecidableEq, Repr

/-- A text of printable characters and line breaks, written as a string constant. -/
def Text.asConstant (t : Text) : Text :=
  ['\x22'] ++ t.flatMap escape ++ ['\x22']
where
  escape (c : Char) : Text :=
    if c = '\x22' ∨ c = '\\' then ['\\', c]
    else if c = '\n' then ['\\', 'n']
    else if c = '\r' then ['\\', 'r']
    else if c = '\t' then ['\\', 't']
    else [c]

/-- A grammar to read with, the literals to take, and the grammar to name in messages. -/
structure LanguageConfig where
  label : Grammar
  language : Grammar
  query : Query
  deriving DecidableEq, Repr

namespace LanguageConfig

def ofGrammar (g : Grammar) : LanguageConfig := ⟨g, g, g.query⟩

def debugText (c : LanguageConfig) : Text :=
  Text.ofString "LanguageConfig \x7b grammar: " ++ c.label.variantName
    ++ Text.ofString ", literals_query: " ++ c.query.text.asConstant
    ++ Text.ofString ", .. \x7d"

def unknownNode? (c : LanguageConfig) : Option UnknownNode :=
  (c.query.zipIdx 1).findSome? fun (p, row) =>
    if c.language.literalNames.contains p.name then none else some ⟨row, p.name⟩

/-- A node name begins in the second column of its row. -/
def setupMessage (c : LanguageConfig) (u : UnknownNode) : Text :=
  Text.ofString "literal query for '" ++ c.label.name
    ++ Text.ofString "' is invalid: Query error at " ++ Text.decimal u.row
    ++ Text.ofString ":2. Invalid node type " ++ u.name.text

end LanguageConfig
end SourceWindow
