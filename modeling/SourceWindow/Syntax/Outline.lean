import SourceWindow.Syntax.Token

set_option autoImplicit false

namespace SourceWindow

/-- The order of tokens in a language, by states between them. -/
structure Outline (σ : Type) where
  initial : σ
  step : σ → Token → Option σ
  ends : σ → Bool
  /-- The source may end, and no line end is needed for that. -/
  rests : σ → Bool
  depth : σ → Nat
  begins : σ → Token → Bool
  supplies : σ → Option Shape → List Shape
  completes : NodeName → Bool

structure Fault where
  mark : Mark
  start : Nat
  stop : Nat
  deriving DecidableEq, Repr

def Fault.tree (f : Fault) : SyntaxTree := .node ⟨.other, f.mark, f.start, f.stop⟩ []

end SourceWindow
