import SourceWindow.Lines

set_option autoImplicit false

namespace SourceWindow

/-- Line indices from zero, the stop excluded. -/
structure LineWindow where
  start : Nat
  stop : Nat
  total : Nat
  deriving DecidableEq, Repr

namespace LineWindow

/-- None when the window starts past the last of `total` lines. -/
def resolve? (total : Nat) (first last : Int) : Option LineWindow :=
  let start := (first - 1).toNat
  if total ≤ start then none else some ⟨start, min last.toNat total, total⟩

def numberWidth (w : LineWindow) : Nat := (Text.decimal w.stop).length

def isEmpty (w : LineWindow) : Bool := w.stop ≤ w.start

end LineWindow

namespace Text

def endOfFileMessage (total : Nat) : Text :=
  ofString "⚠️ End of file reached (Total lines: " ++ decimal total ++ [')']

def numbered (number width : Nat) (content : Text) : Text :=
  let digits := decimal number
  List.replicate (width - digits.length) ' ' ++ digits ++ [' ', '|', ' '] ++ content

def window (t : Text) (first last : Int) : Text :=
  let index := LineIndex.ofText t
  match LineWindow.resolve? index.length first last with
  | none => endOfFileMessage index.length
  | some w =>
    let shown := (index.take w.stop).drop w.start
    let rows := shown.zipIdx w.start |>.map fun (line, i) =>
      numbered (i + 1) w.numberWidth ((line.content? t).getD [])
    join ['\n'] rows

end Text
end SourceWindow
