import SourceWindow.Syntax.Query
import SourceWindow.Syntax.Document

set_option autoImplicit false

namespace SourceWindow

inductive ParseError where
  | noTree (grammar : Grammar)
  | fault (grammar : Grammar) (line column : Nat)
  deriving DecidableEq, Repr

def ParseError.message : ParseError → Text
  | .noTree g => g.name ++ Text.ofString " parser produced no syntax tree"
  | .fault g line column =>
    g.name ++ Text.ofString " syntax error at line " ++ Text.decimal line
      ++ Text.ofString ", column " ++ Text.decimal column

inductive FaultPolicy where
  | tolerate
  | reject
  deriving DecidableEq, Repr

structure Scanner where
  config : LanguageConfig
  policy : FaultPolicy
  deriving DecidableEq, Repr

namespace Scanner

def ofGrammar (g : Grammar) (policy : FaultPolicy) : Scanner := ⟨.ofGrammar g, policy⟩

/-- What `captures` takes from a tree, or the first fault at its `place`, which counts from zero. -/
def scanTree (s : Scanner) (place : Node → Nat × Nat)
    (captures : Query → SyntaxTree → List LiteralSpan) (tree : SyntaxTree) :
    Except ParseError (List LiteralSpan) :=
  if tree.hasFault && s.policy == .reject then
    let (row, column) := (tree.firstFault?.map place).getD (0, 0)
    .error (.fault s.config.label (row + 1) (column + 1))
  else .ok (captures s.config.query tree)

def scan (s : Scanner) (t : Text) : Except ParseError (List LiteralSpan) :=
  s.scanTree (fun n => t.place n.start) Query.literals (s.config.language.parse t)

end Scanner
end SourceWindow
