import SourceWindow.Syntax.Token

set_option autoImplicit false

namespace SourceWindow.Lexeme

def newline (c : Char) : Bool := c == '\n'

def newlineOrReturn (c : Char) : Bool := c == '\n' || c == '\r'

def never (_ : Char) : Bool := false

/-- Through the closing mark of a literal with backslash escapes; none where it ends before. -/
def quoted? (close : Char) (ends : Char → Bool) : Text → Option Nat
  | [] => none
  | '\\' :: '\r' :: '\n' :: t => (quoted? close ends t).map (· + 3)
  | '\\' :: _ :: t => (quoted? close ends t).map (· + 2)
  | c :: t =>
    if c = close then some 1
    else if ends c then none
    else (quoted? close ends t).map (· + 1)

def through? (pattern : Text) : Text → Option Nat
  | [] => none
  | c :: t =>
    if pattern.isPrefixOf (c :: t) then some pattern.length
    else (through? pattern t).map (· + 1)

def countWhile (p : Char → Bool) (t : Text) : Nat := (t.takeWhile p).length

def untilNewline (t : Text) : Nat := countWhile (· != '\n') t

/-- A block comment after its opening mark; one that is not closed takes all the text. -/
def blockComment (t : Text) : Nat := (through? ['*', '/'] t).getD t.length

def nestedComment : Nat → Text → Nat
  | 0, _ => 0
  | _, [] => 0
  | depth + 1, '*' :: '/' :: t => nestedComment depth t + 2
  | depth + 1, '/' :: '*' :: t => nestedComment (depth + 2) t + 2
  | depth + 1, _ :: t => nestedComment (depth + 1) t + 1

def isBlankChar (c : Char) : Bool :=
  c == ' ' || c == '\t' || c == '\n' || c == '\r' || c == '\x0b' || c == '\x0c'
    || c == '\u00a0' || c == '\ufeff' || c == '\u2060' || c == '\u200b' || c == '\u2028'
    || c == '\u2029' || c == '\u3000'

def isWordStart (c : Char) : Bool := c.isAlpha || c == '_' || (128 ≤ c.toNat && !isBlankChar c)

def isWordChar (c : Char) : Bool := isWordStart c || c.isDigit

def wordRest (t : Text) : Nat := countWhile isWordChar t

/-- The rest of a number: digits, letters, points and signed exponents; an apostrophe between
digits where `apostrophes` are allowed. -/
def numberRest (apostrophes : Bool) : Text → Nat
  | 'e' :: '+' :: t | 'e' :: '-' :: t | 'E' :: '+' :: t | 'E' :: '-' :: t =>
    numberRest apostrophes t + 2
  | '.' :: '.' :: _ => 0
  | '\x27' :: c :: t =>
    if apostrophes && c.isAlphanum then numberRest apostrophes t + 2 else 0
  | c :: t => if c.isAlphanum || c == '_' || c == '.' then numberRest apostrophes t + 1 else 0
  | [] => 0

def signs : List String := [
  ">>>=", "...", "..=", "===", "!==", "**=", "<<=", ">>=", "&&=", "||=", "??=", ">>>", "<=>",
  "=>", "->", "::", ":=", "==", "!=", "<=", ">=", "+=", "-=", "*=", "/=", "%=", "&=", "|=", "^=",
  "++", "--", "&&", "||", "??", "?.", "**", "<<", "<-", "..", "//"]

def sign (c : Char) (t : Text) : String :=
  (signs.find? fun s => s.toList.isPrefixOf (c :: t)).getD (String.ofList [c])

def ofSign {σ : Type} (s : String) (next : σ) : Lexeme σ := ⟨.sign s, s.length - 1, next⟩

def bracket? : Char → Option Shape
  | '(' => some (.opening .round)
  | '[' => some (.opening .square)
  | '{' => some (.opening .curly)
  | ')' => some (.closing .round)
  | ']' => some (.closing .square)
  | '}' => some (.closing .curly)
  | _ => none

def word (c : Char) (t : Text) : String := String.ofList (c :: t.takeWhile isWordChar)

end SourceWindow.Lexeme
