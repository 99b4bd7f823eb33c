import SourceWindow.Syntax.Tree
import SourceWindow.Text

set_option autoImplicit false

namespace SourceWindow

inductive Bracket where
  | round
  | square
  | curly
  deriving DecidableEq, Repr

inductive Shape where
  | blank
  | line
  | word (w : String)
  | atom
  | sign (s : String)
  | opening (b : Bracket)
  | closing (b : Bracket)
  | literal (name : NodeName)
  | unclosed (name : NodeName)
  | enter (name : NodeName)
  | leave
  | stray
  deriving DecidableEq, Repr

structure Token where
  shape : Shape
  start : Nat
  stop : Nat
  deriving DecidableEq, Repr

/-- A token's shape, the characters that it has besides its first, and the state after it. -/
structure Lexeme (σ : Type) where
  shape : Shape
  more : Nat
  next : σ

abbrev Lexer (σ : Type) := σ → Char → Text → Lexeme σ

def Lexer.tokens {σ : Type} (read : Lexer σ) (s : σ) (here : Nat) : Text → List Token
  | [] => []
  | c :: t =>
    let lexeme := read s c t
    let stop := here + c.utf8Size + Text.size (t.take lexeme.more)
    ⟨lexeme.shape, here, stop⟩ :: read.tokens lexeme.next stop (t.drop lexeme.more)
termination_by t => t.length

/-- A node under way: its name, its start, and the trees before it, the last first. -/
structure Unfinished where
  name : NodeName
  start : Nat
  before : List SyntaxTree

/-- Adds tokens to the trees found so far, the last first. Nodes that are not left are no nodes,
but what they hold is kept. -/
def Token.trees (found : List SyntaxTree) (nodes : List Unfinished) :
    List Token → List SyntaxTree
  | [] => (nodes.foldl (fun inner n => inner ++ n.before) found).reverse
  | ⟨.literal name, start, stop⟩ :: ts =>
    trees (.node ⟨name, .sound, start, stop⟩ [] :: found) nodes ts
  | ⟨.enter name, start, _⟩ :: ts => trees [] (⟨name, start, found⟩ :: nodes) ts
  | ⟨.leave, _, stop⟩ :: ts =>
    match nodes with
    | [] => trees found [] ts
    | n :: nodes =>
      trees (.node ⟨n.name, .sound, n.start, stop⟩ found.reverse :: n.before) nodes ts
  | _ :: ts => trees found nodes ts

end SourceWindow
