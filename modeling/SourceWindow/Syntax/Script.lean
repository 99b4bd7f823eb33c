import SourceWindow.Syntax.Lexeme

/-!
Tokens of JavaScript and of its dialects with types and with elements. What a slash, an angle
bracket or a brace begins depends on whether a value ended before it, and what a template is, on
whether a type is expected.
-/

set_option autoImplicit false

namespace SourceWindow.Script

structure Dialect where
  elements : Bool
  types : Bool
  deriving DecidableEq, Repr

/-- Code between brackets, or at the top. -/
structure Code where
  value : Bool := false
  typing : Bool := false
  /-- The type ends with the statement or the brackets. -/
  lasting : Bool := false
  conditionals : Nat := 0
  declares : Bool := false
  deriving DecidableEq, Repr

inductive Frame where
  | code (k : Code)
  | template
  | tag
  | content
  | closingTag
  deriving DecidableEq, Repr

structure State where
  frames : List Frame
  value : Bool := false
  last : Shape := .blank
  newline : Bool := false
  header : Bool := false
  «alias» : Bool := false
  deriving DecidableEq, Repr

def initial : State := { frames := [.code {}] }

def State.code (s : State) : Code :=
  match s.frames with
  | .code k :: _ => k
  | _ => {}

def State.withCode (s : State) (f : Code → Code) : State :=
  match s.frames with
  | .code k :: frames => { s with frames := .code (f k) :: frames }
  | _ => s

def State.push (s : State) (f : Frame) : State := { s with frames := f :: s.frames }

def State.pop (s : State) : State :=
  match s.frames with
  | _ :: f :: frames => { s with frames := f :: frames }
  | _ => s

def operatorWords : List String := [
  "return", "typeof", "case", "in", "of", "instanceof", "void", "delete", "throw", "new", "else",
  "do", "default", "yield", "await", "as", "satisfies", "extends", "keyof", "is", "import",
  "export", "from", "readonly", "infer"]

def valueWords : List String := [
  "return", "typeof", "case", "in", "of", "instanceof", "void", "delete", "throw", "new",
  "default", "yield", "await", "as", "satisfies", "extends", "keyof", "is"]

def isNameStart (c : Char) : Bool := Lexeme.isWordStart c || c == '$'

def isNameChar (c : Char) : Bool := Lexeme.isWordChar c || c == '$'

/-- The characters of a regular expression with its flags; none where the line ends in it. -/
def regex? (inClass : Bool) : Text → Option Nat
  | [] => none
  | '\n' :: _ | '\r' :: _ => none
  | '\\' :: c :: t => if Lexeme.newlineOrReturn c then none else (regex? inClass t).map (· + 2)
  | '[' :: t => (regex? true t).map (· + 1)
  | ']' :: t => (regex? false t).map (· + 1)
  | c :: t =>
    if c = '/' ∧ !inClass then some (1 + Lexeme.countWhile isNameChar t)
    else (regex? inClass t).map (· + 1)

def valueToken (s : State) (shape : Shape) (more : Nat) : Lexeme State :=
  ⟨shape, more, { s with value := true, last := shape, newline := false }⟩

def lineComment (t : Text) : Nat :=
  Lexeme.countWhile (fun c => c != '\n' && c != '\r' && c != '\u2028' && c != '\u2029') t

def opensBlock (s : State) : Bool :=
  match s.last with
  | .sign w => w == "=>" || w == ";"
  | .opening b => b == .curly
  | .word w => !valueWords.contains w
  | _ => true

def opening (d : Dialect) (s : State) (b : Bracket) : Lexeme State :=
  let shape := Shape.opening b
  let outer := s.code
  let condition := match s.last with
    | .word w => ["if", "while", "for", "with", "switch"].contains w
    | _ => false
  let k : Code := {
    value := match b with
      | .round => !condition
      | .square => true
      | .curly => !opensBlock s
    typing := outer.typing
    lasting := outer.typing
    declares := d.types && (b == .round || s.header) }
  let s := { s with value := false, last := shape, newline := false }
  let s := if b = .curly then { s with header := false } else s
  ⟨shape, 0, s.push (.code k)⟩

def closing (s : State) (b : Bracket) : Lexeme State :=
  let shape := Shape.closing b
  let value := s.code.value
  ⟨shape, 0, { s.pop with value, last := shape, newline := false }⟩

def endType (k : Code) : Code := if k.lasting then k else { k with typing := false }

def sign (s : State) (c : Char) (t : Text) : Lexeme State :=
  let w := Lexeme.sign c t
  let w := if w == "//" then "/" else w
  let s := match w with
    | "=" =>
      if s.alias then
        { s.withCode fun k => { k with typing := true, lasting := true } with «alias» := false }
      else s.withCode fun k => { endType k with declares := k.declares && k.value }
    | ":" => s.withCode fun k =>
      if 0 < k.conditionals then { k with conditionals := k.conditionals - 1 }
      else if k.declares then { k with typing := true }
      else k
    | "?" =>
      let optional := ((t.dropWhile Lexeme.isBlankChar).head?).any [':', ')', ','].contains
      if optional then s else s.withCode fun k => { k with conditionals := k.conditionals + 1 }
    | "," | "=>" => s.withCode endType
    | ";" =>
      { s.withCode fun k => { k with typing := false, lasting := false, conditionals := 0 } with
        header := false, «alias» := false }
    | _ => s
  let value := s.value && (w == "++" || w == "--" || w == "!")
  Lexeme.ofSign w { s with value, last := .sign w, newline := false }

def fresh (s : State) : Bool :=
  match s.last with
  | .blank => true
  | .sign w => w == ";"
  | .opening b => b == .curly
  | .closing b => b == .curly
  | .word w => w == "export" || w == "declare"
  | _ => s.newline

def word (d : Dialect) (s : State) (w : String) : Lexeme State :=
  let shape := Shape.word w
  let member := s.last == .sign "." || s.last == .sign "?."
  let s := if !d.types || member then s
    else if w == "class" || w == "interface" then { s with header := true }
    else if w == "type" && fresh s then { s with «alias» := true }
    else if w == "as" || w == "satisfies" then s.withCode fun k => { k with typing := true }
    else if w == "let" || w == "const" || w == "var" then
      s.withCode fun k => { k with declares := true }
    else s
  let value := member || !operatorWords.contains w
  ⟨shape, w.length - 1, { s with value, last := shape, newline := false }⟩

/-- An angle bracket that begins an element rather than type parameters. -/
def beginsElement (d : Dialect) (s : State) (t : Text) : Bool :=
  let name := Lexeme.countWhile (fun c => isNameChar c || c == '.' || c == '-') t
  let rest := (t.drop name).dropWhile Lexeme.isBlankChar
  let parameters := d.types &&
    (rest.head? == some ',' || rest.head? == some '=' || (Text.ofString "extends").isPrefixOf rest)
  d.elements && !s.value &&
    (t.head? == some '>' || (t.head?.any isNameStart && !parameters))

def typeMarks : List Char := ['|', '&', '.', '=', '?', ':', '[', '<', ')', ']', '}', ',']

/-- An alias ends with its line where nothing asks for more. -/
def endLine (s : State) (c : Char) : State :=
  if s.newline && s.value && !typeMarks.contains c then
    s.withCode fun k => if k.value then k else { k with typing := false, lasting := false }
  else s

def inCode (d : Dialect) (s : State) (c : Char) (t : Text) : Lexeme State :=
  if Lexeme.isBlankChar c then
    let newline := Lexeme.newlineOrReturn c
    ⟨if newline then .line else .blank, 0, { s with newline := s.newline || newline }⟩
  else if c = '/' ∧ t.head? = some '/' then ⟨.blank, lineComment t, s⟩
  else if c = '/' ∧ t.head? = some '*' then ⟨.blank, 1 + Lexeme.blockComment (t.drop 1), s⟩
  else if c = '#' ∧ t.head? = some '!' ∧ s.last = .blank then ⟨.blank, lineComment t, s⟩
  else
    let s := endLine s c
    if c = '\x22' ∨ c = '\x27' then
      match Lexeme.quoted? c Lexeme.newlineOrReturn t with
      | some n => valueToken s (.literal .string) n
      | none => valueToken s (.unclosed .string) (Lexeme.countWhile (!Lexeme.newlineOrReturn ·) t)
    else if c = '\x60' then
      let name := if s.code.typing then NodeName.templateType else .templateString
      ⟨.enter name, 0, s.push .template⟩
    else if isNameStart c ∨ c = '#' ∨ c = '@' then
      word d s (String.ofList (c :: t.takeWhile isNameChar))
    else if c.isDigit ∨ c = '.' ∧ t.head?.any Char.isDigit then
      valueToken s .atom (Lexeme.numberRest false t)
    else if c = '/' ∧ !s.value then
      match regex? false t with
      | some n => valueToken s .atom n
      | none => sign s c t
    else if c = '<' ∧ beginsElement d s t then ⟨.enter .element, 0, s.push .tag⟩
    else match Lexeme.bracket? c with
      | some (.opening b) => opening d s b
      | some (.closing b) => closing s b
      | _ => sign s c t

def leave (s : State) (more : Nat) : Lexeme State :=
  ⟨.leave, more, { s.pop with value := true, last := .leave, newline := false }⟩

def substitution (s : State) (more : Nat) : Lexeme State :=
  let k : Code := { value := true }
  let s := { s with value := false, last := .opening .round, newline := false }
  ⟨.opening .curly, more, s.push (.code k)⟩

def inTemplate (s : State) (c : Char) (t : Text) : Lexeme State :=
  if c = '\x60' then leave s 0
  else if c = '\\' then ⟨.blank, 1, s⟩
  else if c = '$' then
    if t.head? = some '{' then substitution s 1 else ⟨.blank, 0, s⟩
  else ⟨.blank, Lexeme.countWhile (fun d => d != '\x60' && d != '\\' && d != '$') t, s⟩

def inTag (s : State) (c : Char) (t : Text) : Lexeme State :=
  if c = '\x22' ∨ c = '\x27' then
    match Lexeme.through? [c] t with
    | some n => ⟨.literal .string, n, s⟩
    | none => ⟨.unclosed .string, t.length, s⟩
  else if c = '{' then substitution s 0
  else if c = '/' ∧ t.head? = some '>' then leave s 1
  else if c = '>' then ⟨.blank, 0, s.pop.push .content⟩
  else ⟨.blank, 0, s⟩

def inContent (s : State) (c : Char) (t : Text) : Lexeme State :=
  if c = '{' then substitution s 0
  else if c = '<' then
    if t.head? = some '/' then ⟨.blank, 1, s.pop.push .closingTag⟩
    else ⟨.enter .element, 0, s.push .tag⟩
  else ⟨.blank, Lexeme.countWhile (fun d => d != '{' && d != '<') t, s⟩

def inClosingTag (s : State) (c : Char) : Lexeme State :=
  if c = '>' then leave s 0 else ⟨.blank, 0, s⟩

def read (d : Dialect) : Lexer State := fun s c t =>
  match s.frames with
  | .template :: _ => inTemplate s c t
  | .tag :: _ => inTag s c t
  | .content :: _ => inContent s c t
  | .closingTag :: _ => inClosingTag s c
  | _ => inCode d s c t

end SourceWindow.Script
