import SourceWindow.Syntax.Lexeme

set_option autoImplicit false

namespace SourceWindow.Python

/-- The closing mark of a string, and whether braces in it hold code. -/
structure Quote where
  mark : Char
  triple : Bool
  formatted : Bool
  deriving DecidableEq, Repr

inductive Frame where
  | string (q : Quote)
  /-- Code in braces, or the format after it; the depth counts brackets in the code. -/
  | field (depth : Nat)
  | format
  deriving DecidableEq, Repr

abbrev State := List Frame

def prefixes : List String :=
  ["r", "u", "b", "f", "br", "rb", "fr", "rf", "t", "tr", "rt"]

def quote? (formatted : Bool) : Text → Option Quote
  | c :: t =>
    if c = '\x22' ∨ c = '\x27' then
      some ⟨c, [c, c].isPrefixOf t, formatted⟩
    else none
  | [] => none

def Quote.length (q : Quote) : Nat := if q.triple then 3 else 1

def plain? (q : Quote) (t : Text) : Option Nat :=
  if q.triple then go t else Lexeme.quoted? q.mark Lexeme.newline t
where
  go : Text → Option Nat
    | [] => none
    | '\\' :: _ :: t => (go t).map (· + 2)
    | c :: t =>
      if c = q.mark ∧ [c, c].isPrefixOf t then some 3 else (go t).map (· + 1)

def inString (q : Quote) (frames : State) (c : Char) (t : Text) : Lexeme State :=
  if c = q.mark ∧ (q.triple → [c, c].isPrefixOf t) then ⟨.leave, q.length - 1, frames⟩
  else if c = '\\' then ⟨.blank, 1, .string q :: frames⟩
  else if c = '{' then
    if t.head? = some '{' then ⟨.blank, 1, .string q :: frames⟩
    else ⟨.opening .curly, 0, .field 0 :: .string q :: frames⟩
  else
    let more := Lexeme.countWhile (fun d => d != q.mark && d != '\\' && d != '{') t
    ⟨.blank, more, .string q :: frames⟩

def inFormat (frames : State) (c : Char) : Lexeme State :=
  if c = '}' then ⟨.closing .curly, 0, frames⟩
  else if c = '{' then ⟨.opening .curly, 0, .field 0 :: .format :: frames⟩
  else ⟨.blank, 0, .format :: frames⟩

def opened : State → State
  | .field depth :: frames => .field (depth + 1) :: frames
  | frames => frames

def closed (c : Char) : State → State
  | .field 0 :: frames => if c = '}' then frames else .field 0 :: frames
  | .field (depth + 1) :: frames => .field depth :: frames
  | frames => frames

def string (frames : State) (letters : Nat) (q : Quote) (t : Text) : Lexeme State :=
  let body := t.drop (q.length - 1)
  match plain? q body with
  | some n =>
    if q.formatted then ⟨.enter .string, letters + q.length - 1, .string q :: frames⟩
    else ⟨.literal .string, letters + q.length - 1 + n, frames⟩
  | none =>
    if q.triple then ⟨.unclosed .string, letters + t.length, frames⟩
    else ⟨.unclosed .string, letters + Lexeme.untilNewline t, frames⟩

def inCode (frames : State) (c : Char) (t : Text) : Lexeme State :=
  if c = '\n' then ⟨.line, 0, frames⟩
  else if Lexeme.isBlankChar c then ⟨.blank, 0, frames⟩
  else if c = '#' then ⟨.blank, Lexeme.untilNewline t, frames⟩
  else if c = '\\' ∧ t.head?.any Lexeme.newlineOrReturn then
    ⟨.blank, if ['\r', '\n'].isPrefixOf t then 2 else 1, frames⟩
  else if c = '\x22' ∨ c = '\x27' then
    match quote? false (c :: t) with
    | some q => string frames 0 q t
    | none => ⟨.stray, 0, frames⟩
  else if Lexeme.isWordStart c then
    let w := Lexeme.word c t
    let rest := t.drop (w.length - 1)
    let letters := w.toLower
    match quote? (letters.contains 'f' || letters.contains 't') rest with
    | some q =>
      if prefixes.contains letters then string frames w.length q (rest.drop 1)
      else ⟨.word w, w.length - 1, frames⟩
    | none => ⟨.word w, w.length - 1, frames⟩
  else if c.isDigit ∨ c = '.' ∧ t.head?.any Char.isDigit then
    ⟨.atom, Lexeme.numberRest false t, frames⟩
  else match Lexeme.bracket? c with
    | some (.opening b) => ⟨.opening b, 0, opened frames⟩
    | some shape => ⟨shape, 0, closed c frames⟩
    | none =>
      if c = ':' ∧ frames.head? = some (.field 0) then
        ⟨.sign ":", 0, .format :: frames.drop 1⟩
      else if c = '!' ∧ frames.head? = some (.field 0) ∧ t.head? ≠ some '=' then
        ⟨.sign "!", Lexeme.wordRest t, frames⟩
      else Lexeme.ofSign (Lexeme.sign c t) frames

def read : Lexer State := fun frames c t =>
  match frames with
  | .string q :: rest => inString q rest c t
  | .format :: rest => inFormat rest c
  | _ => inCode frames c t

end SourceWindow.Python
