import SourceWindow.Syntax.Lexeme

set_option autoImplicit false

namespace SourceWindow.Go

def read : Lexer Unit := fun _ c t =>
  if c = '\n' then ⟨.line, 0, ()⟩
  else if Lexeme.isBlankChar c then ⟨.blank, 0, ()⟩
  else if c = '/' ∧ t.head? = some '/' then ⟨.blank, Lexeme.untilNewline t, ()⟩
  else if c = '/' ∧ t.head? = some '*' then ⟨.blank, 1 + Lexeme.blockComment (t.drop 1), ()⟩
  else if c = '\x22' then
    match Lexeme.quoted? '\x22' Lexeme.newline t with
    | some n => ⟨.literal .interpretedStringLiteral, n, ()⟩
    | none => ⟨.unclosed .interpretedStringLiteral, Lexeme.untilNewline t, ()⟩
  else if c = '\x60' then
    match Lexeme.through? ['\x60'] t with
    | some n => ⟨.literal .rawStringLiteral, n, ()⟩
    | none => ⟨.unclosed .rawStringLiteral, t.length, ()⟩
  else if c = '\x27' then
    match Lexeme.quoted? '\x27' Lexeme.newline t with
    | some n => ⟨.atom, n, ()⟩
    | none => ⟨.stray, 0, ()⟩
  else if Lexeme.isWordStart c then
    let w := Lexeme.word c t
    ⟨.word w, w.length - 1, ()⟩
  else if c.isDigit ∨ c = '.' ∧ t.head?.any Char.isDigit then
    ⟨.atom, Lexeme.numberRest false t, ()⟩
  else match Lexeme.bracket? c with
    | some shape => ⟨shape, 0, ()⟩
    | none => Lexeme.ofSign (Lexeme.sign c t) ()

end SourceWindow.Go
