import SourceWindow.Text

/-!
Edits of byte ranges. A set of edits is resolved to edits that do not overlap the one kept before,
earlier and then longer ranges first, and applied from the back, so that an edit still waiting
finds its range where it was.
-/

set_option autoImplicit false

namespace SourceWindow

structure Edit where
  start : Nat
  stop : Nat
  replacement : Text
  deriving DecidableEq, Repr

namespace Edit

def overlaps (a b : Edit) : Bool := a.start < b.stop && b.start < a.stop

def fits (e : Edit) (source : Text) : Bool :=
  e.start ≤ e.stop && source.isBoundary e.start && source.isBoundary e.stop

def precedes (a b : Edit) : Bool := a.start < b.start || a.start == b.start && b.stop ≤ a.stop

end Edit

abbrev EditSet := List Edit

namespace EditSet

/-- Keeps each edit that does not overlap the last one kept. -/
def keepApart (last : Option Edit) : List Edit → List Edit
  | [] => []
  | e :: es =>
    if last.any e.overlaps then keepApart last es else e :: keepApart (some e) es

def resolved (edits : EditSet) : List Edit := keepApart none (edits.mergeSort Edit.precedes)

/-- The edits to be made, the last in the source first. -/
def ordered (edits : EditSet) : List Edit := edits.resolved.reverse

/-- Makes the resolved edits that fit the source, each on the text as changed so far. None when
such a range is no longer one of that text. -/
def applyTo? (edits : EditSet) (source : Text) : Option Text :=
  edits.ordered.foldlM step source
where
  step (changed : Text) (e : Edit) : Option Text :=
    if e.fits source then changed.replace? e.start e.stop e.replacement else some changed

end EditSet
end SourceWindow
