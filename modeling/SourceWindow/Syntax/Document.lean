import SourceWindow.Grammar
import SourceWindow.Syntax.Cpp
import SourceWindow.Syntax.Go
import SourceWindow.Syntax.Json
import SourceWindow.Syntax.Python
import SourceWindow.Syntax.Python.Nesting
import SourceWindow.Syntax.Reading
import SourceWindow.Syntax.Rust
import SourceWindow.Syntax.Script
import SourceWindow.Syntax.Shell
import SourceWindow.Syntax.Shell.Nesting
import SourceWindow.Syntax.Statement

set_option autoImplicit false

namespace SourceWindow.Grammar

def tokens (g : Grammar) (t : Text) : List Token :=
  match g with
  | .javascript => (Script.read ⟨true, false⟩).tokens Script.initial 0 t
  | .typescript => (Script.read ⟨false, true⟩).tokens Script.initial 0 t
  | .tsx => (Script.read ⟨true, true⟩).tokens Script.initial 0 t
  | .python => Python.read.tokens [] 0 t
  | .rust => Rust.read.tokens () 0 t
  | .go => Go.read.tokens () 0 t
  | .cpp => Cpp.read.tokens () 0 t
  | .json => Json.read.tokens () 0 t
  | .bash => Shell.read.tokens {} 0 t

def fault? (g : Grammar) (ts : List Token) : Option Fault :=
  match g with
  | .javascript | .typescript | .tsx => (Statement.outline .script).fault? ts
  | .python => Python.outline.fault? ts
  | .rust => (Statement.outline .rust).fault? ts
  | .go => (Statement.outline .go).fault? ts
  | .cpp => (Statement.outline .cpp).fault? ts
  | .json => Json.outline.fault? ts
  | .bash => Shell.outline.fault? ts

def insert (f : Fault) (trees : List SyntaxTree) : List SyntaxTree :=
  let (before, after) := trees.span fun t => t.root.start < f.start
  before ++ f.tree :: after

/-- A literal whose closing mark alone is missing is a literal all the same. -/
def complete (f : Fault) (t : Token) : Token :=
  match t.shape with
  | .unclosed name =>
    if f.mark = .missing ∧ f.start = t.stop then { t with shape := .literal name } else t
  | _ => t

def parse (g : Grammar) (t : Text) : SyntaxTree :=
  let ts := g.tokens t
  let trees := match g.fault? ts with
    | some f => insert f (Token.trees [] [] (ts.map (complete f)))
    | none => Token.trees [] [] ts
  .node ⟨.document, .sound, 0, t.size⟩ trees

end SourceWindow.Grammar
