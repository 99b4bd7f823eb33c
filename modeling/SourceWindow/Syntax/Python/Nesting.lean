import SourceWindow.Syntax.Outline

set_option autoImplicit false

namespace SourceWindow.Python

inductive Ended where
  | nothing
  | start
  | operator
  | keyword
  /-- A name that may begin a statement of its own kind. -/
  | soft
  | operand
  | literal
  deriving DecidableEq, Repr

def Ended.isOperand (e : Ended) : Bool := e == .operand || e == .literal

structure Nesting where
  /-- Brackets that are open, the innermost first; none for a formatted string. -/
  brackets : List (Option Bracket) := []
  ended : Ended := .nothing
  fresh : Bool := true
  header : Bool := false
  /-- The last two words, the last one first, while nothing else came after them. -/
  words : List String := []
  deriving DecidableEq, Repr

def joining : List String :=
  ["and", "or", "in", "is", "not", "if", "else", "for", "as", "from", "import", "async"]

def statementWords : List String :=
  ["return", "def", "class", "while", "with", "try", "except", "finally", "elif", "raise", "pass",
    "break", "continue", "del", "global", "nonlocal", "assert"]

def valueWords : List String := ["lambda", "await", "yield"]

def headWords : List String :=
  ["if", "elif", "else", "for", "while", "with", "try", "except", "finally", "def", "class"]

def softWords : List String := ["print", "exec", "match", "case", "type"]

def leading : List String := ["+", "-", "~", "*", "**", "/", "@", "."]

def Nesting.after (n : Nesting) (ended : Ended) : Nesting :=
  { n with ended, fresh := false, words := [] }

def Nesting.word (n : Nesting) (w : String) : Option Nesting :=
  let words := w :: n.words.take 1
  if joining.contains w || statementWords.contains w || valueWords.contains w then
    let misplaced := statementWords.contains w &&
      (!n.brackets.isEmpty || !n.fresh && n.ended != .nothing && n.words != ["async"])
    if n.ended.isOperand && !joining.contains w || misplaced then none
    else
      let header := n.header || n.fresh && headWords.contains w
        || n.words == ["async"] && headWords.contains w
      some { n.after .keyword with header, words }
  else if n.ended.isOperand then none
  else
    let ended := if n.fresh && softWords.contains w then Ended.soft else .operand
    some { n.after ended with words }

def Nesting.sign (n : Nesting) (w : String) : Option Nesting :=
  match w with
  | "," => if n.ended == .operator || n.ended == .start then none else some (n.after .start)
  | ";" =>
    if n.ended == .operator || !n.brackets.isEmpty then none
    else some { n.after .nothing with fresh := true }
  | ":" =>
    let headless := (n.ended == .nothing || n.ended == .start)
      && n.brackets.head? != some (some .square)
    let nameless := n.words.head? == some "class" || n.words.drop 1 == ["def"]
    if n.ended == .operator || headless || nameless then none
    else if n.brackets.isEmpty && n.header then
      some { n.after .nothing with fresh := true, header := false }
    else some (n.after .nothing)
  | "..." => if n.ended.isOperand then none else some (n.after .operand)
  | "!" => some { n with words := [] }
  | "?" | "$" | "\x60" => none
  | _ =>
    if n.ended.isOperand || n.ended == .soft then some (n.after .operator)
    else if leading.contains w then
      some (n.after (if n.ended == .operator then .operator else .nothing))
    else if n.ended == .operator then none
    else some (n.after .operator)

def Nesting.step (n : Nesting) (t : Token) : Option Nesting :=
  match t.shape with
  | .word w => n.word w
  | .sign w => n.sign w
  | .literal _ => if n.ended == .operand then none else some (n.after .literal)
  | .atom => if n.ended.isOperand then none else some (n.after .operand)
  | .opening b =>
    some { n.after .start with brackets := some b :: n.brackets }
  | .closing b =>
    match n.brackets with
    | some b' :: outer =>
      if b = b' && n.ended != .operator then some { n.after .operand with brackets := outer }
      else none
    | _ => none
  | .enter _ =>
    if n.ended == .operand then none
    else some { n.after .nothing with brackets := none :: n.brackets }
  | .leave =>
    match n.brackets with
    | none :: outer => some { n.after .literal with brackets := outer }
    | _ => none
  | .line =>
    if n.brackets.isEmpty && n.ended != .operator && !n.header then
      some { n.after .nothing with fresh := true }
    else some n
  | .unclosed _ | .stray => none
  | .blank => some n

def Nesting.supplies (n : Nesting) (next : Option Shape) : List Shape :=
  if next.isNone then []
  else match n.brackets with
    | some b :: _ => [.closing b]
    | none :: _ => []
    | [] => if n.ended.isOperand && !n.header then [.line] else []

def outline : Outline Nesting where
  initial := {}
  step := Nesting.step
  ends n := n.brackets.isEmpty && n.ended != .operator && !n.header
  rests n := n.brackets.isEmpty && n.fresh
  depth n := n.brackets.length
  begins n _ := n.fresh
  supplies := Nesting.supplies
  completes _ := false

end SourceWindow.Python
