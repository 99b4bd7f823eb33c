import SourceWindow.Text

/-!
Lines of a text. A line ends at a line feed, a carriage return, or the two in this order; a last
line without terminator counts unless it is empty. The number of terminators is counted apart.
-/

set_option autoImplicit false

namespace SourceWindow

structure Line where
  start : Nat
  stop : Nat
  deriving DecidableEq, Repr

def Line.content? (l : Line) (t : Text) : Option Text := t.slice? l.start l.stop

abbrev LineIndex := List Line

/-- Lines of the rest of a text from byte `here` on, inside the line that began at `start`. -/
def LineIndex.scan (start here : Nat) : Text → LineIndex
  | [] => if start < here then [⟨start, here⟩] else []
  | '\n' :: t => ⟨start, here⟩ :: scan (here + 1) (here + 1) t
  | '\r' :: '\n' :: t => ⟨start, here⟩ :: scan (here + 2) (here + 2) t
  | '\r' :: t => ⟨start, here⟩ :: scan (here + 1) (here + 1) t
  | c :: t => scan start (here + c.utf8Size) t

def LineIndex.ofText (t : Text) : LineIndex := scan 0 0 t

/-- The line that holds a byte offset, from zero. A terminator belongs to the line that it ends,
and offsets past the end to the last line. -/
def LineIndex.lineAt? (index : LineIndex) (offset : Nat) : Option Nat :=
  if index.isEmpty then none
  else some ((index.takeWhile (·.start ≤ offset)).length - 1)

def Text.lineCount (t : Text) : Nat := (LineIndex.ofText t).length

/-- Number of line terminators; a carriage return with its line feed counts once. -/
def Text.lineBreaks : Text → Nat
  | [] => 0
  | '\r' :: '\n' :: t => lineBreaks t + 1
  | c :: t => lineBreaks t + if c = '\n' ∨ c = '\r' then 1 else 0

end SourceWindow
