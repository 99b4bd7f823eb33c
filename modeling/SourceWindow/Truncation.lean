import SourceWindow.Edit
import SourceWindow.Lines
import SourceWindow.Literal

/-!
Truncation of over-long literals. A literal gives way to its first and last characters around a
marker with its size. Line breaks in the two previews are written as escapes, and one line feed is
set for each break of the literal, so that no later line moves.
-/

set_option autoImplicit false

namespace SourceWindow

inductive TruncationLimit where
  | disabled
  | maxBytes (n : Nat)
  deriving DecidableEq, Repr

namespace TruncationLimit

def ofInt : Int → TruncationLimit
  | .ofNat n => .maxBytes n
  | .negSucc _ => .disabled

def isExceededBy : TruncationLimit → Nat → Bool
  | .disabled, _ => false
  | .maxBytes n, size => n < size

def standardBytes : Int := 200

def standard : TruncationLimit := ofInt standardBytes

end TruncationLimit

/-- Characters shown at either end of a truncated literal, besides its delimiter. -/
def previewLength : Nat := 19

namespace Text

def escapeBreaks (t : Text) : Text :=
  t.flatMap fun c => if c = '\n' then ['\\', 'n'] else if c = '\r' then ['\\', 'r'] else [c]

/-- What stands in place of a literal: its head, its size, its line breaks and its tail. -/
def truncated : Text → Text
  | [] => []
  | first :: rest =>
    let literal : Text := first :: rest
    let last := literal.getLast (List.cons_ne_nil first rest)
    let head := rest.take previewLength
    let tail := literal.dropLast.drop (literal.length - (previewLength + 1))
    escapeBreaks [first] ++ escapeBreaks head
      ++ ofString " ...[TRUNCATED " ++ decimal literal.size ++ ofString " CHARS]... "
      ++ List.replicate literal.lineBreaks '\n'
      ++ escapeBreaks tail ++ escapeBreaks [last]

def splitsBreak (t : Text) (offset : Nat) : Bool :=
  match t.splitAt? offset with
  | some (before, '\n' :: _) => before.getLast? == some '\r'
  | _ => false

end Text

structure TruncatedLiteral where
  line : Nat
  start : Nat
  byteLength : Nat
  lineBreaks : Nat
  kind : LiteralKind
  deriving DecidableEq, Repr

structure Truncation where
  text : Text
  literals : List TruncatedLiteral
  /-- Over-long spans that name no part of the text that can be replaced. -/
  skipped : Nat
  deriving DecidableEq, Repr

namespace LiteralSpan

def replaceable (s : LiteralSpan) (source : Text) : Bool :=
  (s.text? source).isSome && !source.splitsBreak s.start && !source.splitsBreak s.stop

def overlong (limit : TruncationLimit) (s : LiteralSpan) : Bool := limit.isExceededBy s.size

def usable (source : Text) (limit : TruncationLimit) (s : LiteralSpan) : Bool :=
  s.overlong limit && s.replaceable source

def edit? (source : Text) (s : LiteralSpan) : Option Edit :=
  (s.text? source).map fun literal => ⟨s.start, s.stop, literal.truncated⟩

end LiteralSpan

/-- The kind of the last span with the range of an edit. -/
def kindOfEdit (spans : List LiteralSpan) (e : Edit) : LiteralKind :=
  ((spans.reverse.find? fun s => s.start == e.start && s.stop == e.stop).map (·.kind)).getD .string

def TruncatedLiteral.ofEdit? (source : Text) (index : LineIndex) (spans : List LiteralSpan)
    (e : Edit) : Option TruncatedLiteral :=
  (source.slice? e.start e.stop).map fun literal =>
    { line := (index.lineAt? e.start).elim 1 (· + 1)
      start := e.start
      byteLength := e.stop - e.start
      lineBreaks := literal.lineBreaks
      kind := kindOfEdit spans e }

/-- Truncates the over-long literals and reports them. None if an edit met no range of the text. -/
def truncate? (source : Text) (spans : List LiteralSpan) (limit : TruncationLimit) :
    Option Truncation :=
  let overlong := spans.filter (·.overlong limit)
  let usable := overlong.filter (·.replaceable source)
  let skipped := overlong.length - usable.length
  let edits : EditSet := usable.filterMap (·.edit? source)
  if edits.isEmpty then some ⟨source, [], skipped⟩
  else do
    let ordered := edits.ordered
    let literals ← ordered.reverse.mapM
      (TruncatedLiteral.ofEdit? source (LineIndex.ofText source) usable)
    let text ← EditSet.applyTo? ordered source
    some ⟨text, literals, skipped⟩

end SourceWindow
