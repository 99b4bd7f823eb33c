import SourceWindow.Text

set_option autoImplicit false

namespace SourceWindow

inductive LiteralKind where
  | string
  | template
  deriving DecidableEq, Repr

/-- A byte range, which may be reversed or no range of the text at hand. -/
structure LiteralSpan where
  start : Nat
  stop : Nat
  kind : LiteralKind
  deriving DecidableEq, Repr

namespace LiteralSpan

def size (s : LiteralSpan) : Nat := s.stop - s.start

def isEmpty (s : LiteralSpan) : Bool := s.size == 0

def text? (s : LiteralSpan) (source : Text) : Option Text := source.slice? s.start s.stop

end LiteralSpan
end SourceWindow
