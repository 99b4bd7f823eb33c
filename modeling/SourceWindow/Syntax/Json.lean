import SourceWindow.Syntax.Lexeme
import SourceWindow.Syntax.Outline

set_option autoImplicit false

namespace SourceWindow.Json

def keywords : List String := ["true", "false", "null"]

def isNumberChar (c : Char) : Bool :=
  c.isDigit || c == '.' || c == 'e' || c == 'E' || c == '+' || c == '-'

def read : Lexer Unit := fun _ c t =>
  if Lexeme.isBlankChar c then ⟨.blank, Lexeme.countWhile Lexeme.isBlankChar t, ()⟩
  else if c = '/' ∧ t.head? = some '/' then ⟨.blank, Lexeme.untilNewline t, ()⟩
  else if c = '/' ∧ t.head? = some '*' then ⟨.blank, 1 + Lexeme.blockComment (t.drop 1), ()⟩
  else if c = '\x22' then
    match Lexeme.quoted? '\x22' Lexeme.newline t with
    | some n => ⟨.literal .string, n, ()⟩
    | none => ⟨.unclosed .string, Lexeme.untilNewline t, ()⟩
  else match Lexeme.bracket? c with
    | some (.opening .round) | some (.closing .round) => ⟨.stray, 0, ()⟩
    | some shape => ⟨shape, 0, ()⟩
    | none =>
      if c = ',' then ⟨.sign ",", 0, ()⟩
      else if c = ':' then ⟨.sign ":", 0, ()⟩
      else if c = '-' ∨ c.isDigit then ⟨.atom, Lexeme.countWhile isNumberChar t, ()⟩
      else if Lexeme.isWordStart c then
        let w := Lexeme.word c t
        ⟨if keywords.contains w then .atom else .stray, w.length - 1, ()⟩
      else ⟨.stray, 0, ()⟩

inductive Expected where
  | valueOrEnd
  | value
  | keyOrEnd
  | key
  | colon
  | memberValue
  | commaOrEnd
  deriving DecidableEq, Repr

abbrev Nesting := List (Bracket × Expected)

def Nesting.value : Nesting → Option Nesting
  | [] => some []
  | (b, .valueOrEnd) :: n | (b, .value) :: n | (b, .memberValue) :: n =>
    some ((b, .commaOrEnd) :: n)
  | _ => none

/-- A key, which any value of one token may be in its place. -/
def Nesting.key : Nesting → Option Nesting
  | (b, .keyOrEnd) :: n | (b, .key) :: n => some ((b, .colon) :: n)
  | _ => none

def Nesting.step (n : Nesting) (t : Token) : Option Nesting :=
  match t.shape, n with
  | .literal _, n => n.key <|> n.value
  | .atom, n => n.value
  | .opening b, n =>
    n.value.map fun outer => (b, if b = .curly then .keyOrEnd else .valueOrEnd) :: outer
  | .closing b, (b', e) :: outer =>
    if b = b' ∧ (e = .valueOrEnd ∨ e = .keyOrEnd ∨ e = .commaOrEnd) then some outer else none
  | .sign ",", (b, .commaOrEnd) :: outer =>
    some ((b, if b = .curly then .key else .value) :: outer)
  | .sign ":", (b, .colon) :: outer => some ((b, .memberValue) :: outer)
  | .line, n => some n
  | _, _ => none

/-- The closing bracket of what is open, and a value before what ends one. -/
def Nesting.supplies (n : Nesting) (next : Option Shape) : List Shape :=
  let closing := n.head?.toList.map fun (b, _) => Shape.closing b
  let ending := match next with
    | some (.closing _) | some (.sign ",") => true
    | _ => false
  if ending then .atom :: closing else closing

def outline : Outline Nesting where
  initial := []
  step := Nesting.step
  ends n := n.isEmpty
  rests n := n.isEmpty
  depth n := n.length
  begins n _ := n.isEmpty
  supplies := Nesting.supplies
  completes _ := true

end SourceWindow.Json
