import SourceWindow.Syntax.Lexeme

set_option autoImplicit false

namespace SourceWindow.Cpp

def prefixes : List String := ["L", "u8", "u", "U"]

def rawPrefixes : List String := ["R", "LR", "u8R", "uR", "UR"]

/-- Through the end of a raw string from its opening mark on. -/
def raw? : Text → Option Nat
  | '\x22' :: t =>
    let delimiter := t.takeWhile (· != '(')
    (Lexeme.through? ([')'] ++ delimiter ++ ['\x22']) (t.drop (delimiter.length + 1))).map
      (· + delimiter.length + 2)
  | _ => none

/-- To the end of a line that a backslash does not continue. -/
def logicalLine : Text → Nat
  | [] => 0
  | '\\' :: '\r' :: '\n' :: t => logicalLine t + 3
  | '\\' :: '\n' :: t => logicalLine t + 2
  | c :: t => if c = '\n' then 0 else logicalLine t + 1

def directive : Text → Nat
  | [] => 0
  | '\\' :: '\r' :: '\n' :: t => directive t + 3
  | '\\' :: '\n' :: t => directive t + 2
  | '/' :: '*' :: _ => 0
  | c :: t => if c = '\n' then 0 else directive t + 1

def string (before : Nat) (t : Text) : Lexeme Unit :=
  match Lexeme.quoted? '\x22' Lexeme.newline t with
  | some n => ⟨.literal .stringLiteral, before + n, ()⟩
  | none => ⟨.unclosed .stringLiteral, before + Lexeme.untilNewline t, ()⟩

def character (before : Nat) (t : Text) : Lexeme Unit :=
  match Lexeme.quoted? '\x27' Lexeme.newline t with
  | some n => ⟨.atom, before + n, ()⟩
  | none => ⟨.stray, before, ()⟩

def inner (c : Char) : Bool := c == ' ' || c == '\t'

def inclusion : String := "#include"

def hash (t : Text) : Lexeme Unit :=
  let gap := Lexeme.countWhile inner t
  let name := (t.drop gap).takeWhile Lexeme.isWordChar
  if name = Text.ofString "include" ∨ name = Text.ofString "include_next" then
    let length := gap + name.length
    let after := (t.drop length).dropWhile inner
    if after.head? = some '\x22' then ⟨.sign inclusion, length, ()⟩
    else ⟨.blank, Lexeme.untilNewline t, ()⟩
  else ⟨.blank, directive t, ()⟩

def read : Lexer Unit := fun _ c t =>
  if Lexeme.isBlankChar c then ⟨.blank, 0, ()⟩
  else if c = '\\' ∧ t.head?.any Lexeme.newlineOrReturn then ⟨.blank, 1, ()⟩
  else if c = '/' ∧ t.head? = some '/' then ⟨.blank, logicalLine t, ()⟩
  else if c = '/' ∧ t.head? = some '*' then ⟨.blank, 1 + Lexeme.blockComment (t.drop 1), ()⟩
  else if c = '#' then hash t
  else if c = '\x22' then string 0 t
  else if c = '\x27' then character 0 t
  else if Lexeme.isWordStart c then
    let w := Lexeme.word c t
    let rest := t.drop (w.length - 1)
    if prefixes.contains w ∧ rest.head? = some '\x22' then string w.length (rest.drop 1)
    else if prefixes.contains w ∧ rest.head? = some '\x27' then character w.length (rest.drop 1)
    else if rawPrefixes.contains w then
      match raw? rest with
      | some n => ⟨.literal .rawStringLiteral, w.length - 1 + n, ()⟩
      | none => ⟨.word w, w.length - 1, ()⟩
    else ⟨.word w, w.length - 1, ()⟩
  else if c.isDigit ∨ c = '.' ∧ t.head?.any Char.isDigit then
    ⟨.atom, Lexeme.numberRest true t, ()⟩
  else match Lexeme.bracket? c with
    | some shape => ⟨shape, 0, ()⟩
    | none =>
      let w := Lexeme.sign c t
      Lexeme.ofSign (if w == "//" then "/" else w) ()

end SourceWindow.Cpp
