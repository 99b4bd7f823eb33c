import SourceWindow.Syntax.Lexeme

set_option autoImplicit false

namespace SourceWindow.Rust

def prefixes : List String := ["b", "c"]

def rawPrefixes : List String := ["r", "br", "cr"]

def raw? (t : Text) : Option Nat :=
  let hashes := Lexeme.countWhile (· == '#') t
  match t.drop hashes with
  | '\x22' :: body =>
    (Lexeme.through? ('\x22' :: List.replicate hashes '#') body).map (· + hashes + 1)
  | _ => none

/-- A character after its opening apostrophe; none where a lifetime is named. -/
def character? : Text → Option Nat
  | '\\' :: _ :: t => (Lexeme.through? ['\x27'] t).map (· + 2)
  | _ :: '\x27' :: _ => some 2
  | _ => none

def string (before : Nat) (t : Text) : Lexeme Unit :=
  match Lexeme.quoted? '\x22' Lexeme.never t with
  | some n => ⟨.literal .stringLiteral, before + n, ()⟩
  | none => ⟨.unclosed .stringLiteral, before + t.length, ()⟩

def read : Lexer Unit := fun _ c t =>
  if Lexeme.isBlankChar c then ⟨.blank, 0, ()⟩
  else if c = '/' ∧ t.head? = some '/' then ⟨.blank, Lexeme.untilNewline t, ()⟩
  else if c = '/' ∧ t.head? = some '*' then
    ⟨.blank, 1 + Lexeme.nestedComment 1 (t.drop 1), ()⟩
  else if c = '\x22' then string 0 t
  else if c = '\x27' then
    match character? t with
    | some n => ⟨.atom, n, ()⟩
    | none => ⟨.word (String.ofList (c :: t.takeWhile Lexeme.isWordChar)), Lexeme.wordRest t, ()⟩
  else if Lexeme.isWordStart c then
    let w := Lexeme.word c t
    let rest := t.drop (w.length - 1)
    if prefixes.contains w ∧ rest.head? = some '\x22' then string w.length (rest.drop 1)
    else if w = "b" ∧ rest.head? = some '\x27' then
      match character? (rest.drop 1) with
      | some n => ⟨.atom, w.length + n, ()⟩
      | none => ⟨.word w, w.length - 1, ()⟩
    else if rawPrefixes.contains w then
      match raw? rest with
      | some n => ⟨.literal .rawStringLiteral, w.length - 1 + n, ()⟩
      | none => ⟨.word w, w.length - 1, ()⟩
    else ⟨.word w, w.length - 1, ()⟩
  else if c.isDigit then ⟨.atom, Lexeme.numberRest false t, ()⟩
  else match Lexeme.bracket? c with
    | some shape => ⟨shape, 0, ()⟩
    | none => Lexeme.ofSign (Lexeme.sign c t) ()

end SourceWindow.Rust
