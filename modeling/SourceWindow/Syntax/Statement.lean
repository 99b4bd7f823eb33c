import SourceWindow.Syntax.Outline

/-!
Statements of the languages with braces: how brackets nest, where an operator's right side is due,
which words may stand side by side, and which statements want a semicolon.
-/

set_option autoImplicit false

namespace SourceWindow.Statement

inductive Family where
  | script
  | rust
  | go
  | cpp
  deriving DecidableEq, Repr

/-- Brackets that are open, or a node with code in it. -/
structure Level where
  bracket : Option Bracket
  block : Bool := false
  /-- Semicolons may stand between the brackets. -/
  loose : Bool := false
  parameters : Bool := false
  named : Bool := false
  /-- Any tokens may follow each other. -/
  free : Bool := false
  pending : Bool := false
  deriving DecidableEq, Repr

inductive Ended where
  | nothing
  /-- A word that may name something or go with the next one. -/
  | soft
  | operand
  | group
  deriving DecidableEq, Repr

structure State where
  levels : List Level := []
  top : Level := { bracket := none }
  due : Bool := false
  ended : Ended := .nothing
  last : Option Shape := none
  /-- The last two words, the last one first, while nothing else came after them. -/
  words : List String := []
  newline : Bool := false
  includes : Bool := false
  deriving DecidableEq, Repr

def State.level (s : State) : Level := s.levels.head?.getD s.top

def State.withLevel (s : State) (f : Level → Level) : State :=
  match s.levels with
  | l :: outer => { s with levels := f l :: outer }
  | [] => { s with top := f s.top }

def demands : Family → List String
  | .script => ["=", "+=", "-=", "*=", "/=", "%=", "**=", "<<=", ">>=", ">>>=", "&=", "|=", "^=",
    "&&=", "||=", "??=", "==", "===", "!=", "!==", "&&", "||", "??", "+", "-", "*", "/", "%", "**",
    "^", "<=", "|", "&"]
  | .rust => ["=", "+=", "-=", "*=", "/=", "%=", "^=", "&=", "|=", "<<=", ">>=", "==", "!=", "<=",
    ">=", "+", "-", "/", "%", "||"]
  | .go => ["=", ":=", "+=", "-=", "*=", "/=", "%=", "^=", "&=", "|=", "==", "!=", "<=", ">=", "+",
    "-", "/", "%", "&&", "||"]
  | .cpp => ["=", "+=", "-=", "*=", "/=", "%=", "^=", "&=", "|=", "==", "!=", "<=", ">=", "+", "-",
    "/", "%", "||"]

def leading : List String :=
  ["+", "-", "!", "~", "*", "&", "&&", "|", "||", "<", "^", "@", "#", "++", "--", "...", "..",
    "..=", "::", ".", "?", "<-", "->", "=>", ">", ">>", "$", ":"]

def idle : Family → List String
  | .script => ["const", "var", "if", "else", "for", "while", "do", "switch", "case", "break",
    "continue", "return", "throw", "try", "catch", "finally", "with", "default", "export",
    "debugger", "enum"]
  | .rust => ["let", "fn", "struct", "enum", "impl", "trait", "mod", "use", "pub", "static", "type",
    "where", "as", "else"]
  | .go => ["var", "const", "type", "package", "import", "return", "if", "for", "switch", "case",
    "default", "go", "defer", "else", "select", "break", "continue"]
  | .cpp => ["const", "static", "constexpr", "extern", "typedef", "using", "namespace", "return",
    "if", "for", "switch", "case", "else", "do", "while", "break", "continue", "goto", "public",
    "private", "protected", "try", "catch"]

def strict : Family → List String
  | .script => ["return", "throw", "break", "continue", "if", "do", "switch", "try", "debugger"]
  | .rust => []
  | .go => ["return", "if", "for", "switch", "go", "defer", "select", "break", "continue"]
  | .cpp => ["return", "for", "switch", "do", "break", "continue", "goto", "try"]

def operatorWords : Family → List String
  | .script => ["typeof", "void", "delete", "await", "yield", "new", "in", "of", "instanceof", "as",
    "satisfies", "is", "keyof", "extends", "implements", "function", "class", "interface",
    "import", "from", "infer", "asserts", "unique"]
  | .cpp => ["operator", "new", "delete", "sizeof", "typename", "template"]
  | _ => []

def softWords : List String :=
  ["let", "async", "static", "get", "set", "type", "declare", "abstract", "namespace", "module",
    "public", "private", "protected", "readonly", "override", "accessor", "global", "using", "out"]

def joining : List String :=
  ["in", "of", "instanceof", "as", "satisfies", "is", "from", "extends", "implements", "else",
    "while", "with", "assert", "catch", "finally"]

def declaring : Family → List String
  | .script => ["const", "var"]
  | .go => ["var", "const", "type"]
  | _ => []

def conditional : List String := ["if", "while", "switch"]

def blockWords : List String := ["else", "do", "try", "finally", "static"]

def bareWords : Family → List String
  | .rust => ["fn", "let", "struct", "enum", "trait", "mod", "impl"]
  | .go => ["func"]
  | _ => []

def opensBlock (f : Family) (s : State) : Bool :=
  match f with
  | .rust | .go => true
  | .cpp =>
    !s.due && match s.last with
      | some (.sign w) => w == ";" || w == ":" || w == ">"
      | some (.opening b) => b == .curly
      | some (.word w) => w != "return"
      | _ => true
  | .script =>
    match s.last with
    | none | some (.closing _) | some .leave => true
    | some (.sign w) => w == ";" || w == "=>"
    | some (.opening b) => b == .curly
    | some (.word w) => s.ended == .operand || blockWords.contains w
    | some (.literal _) | some .atom => s.ended == .operand
    | _ => false

def State.fresh (s : State) : Bool :=
  match s.last with
  | none => true
  | some (.sign w) => w == ";"
  | some (.opening b) | some (.closing b) => b == .curly
  | _ => false

def wantsSemicolon (f : Family) (s : State) (w : String) : Bool :=
  match f with
  | .rust => s.fresh && ["let", "const", "static", "use", "type"].contains w
  | .cpp => w == "return"
  | _ => false

def State.value (s : State) (shape : Shape) (ended : Ended) : State :=
  { s.withLevel fun l => { l with parameters := false } with
    due := false, ended, last := some shape, words := [], newline := false }

/-- A value ended on the same line, so that no other may begin in a script. -/
def State.adjoins (f : Family) (s : State) : Bool :=
  let node := s.level.bracket.isNone && !s.levels.isEmpty
  f == .script && s.ended == .operand && !s.newline && !node && !s.level.free

def State.declares (f : Family) (s : State) : Bool :=
  s.ended == .nothing && s.words.head?.any (declaring f).contains

def State.opens (f : Family) (s : State) : Bool :=
  (f == .script || f == .go) && match s.last with
    | some (.opening _) | some (.sign ":") | some (.sign ",") => true
    | _ => s.declares f

/-- A value is due between brackets that are about to be closed. -/
def State.lacks (f : Family) (s : State) : Bool :=
  s.due || f == .script && !s.level.block && s.last == some (.sign ":")

def word (f : Family) (s : State) (w : String) : Option State :=
  let l := s.level
  let member := s.last == some (.sign ".") || s.last == some (.sign "?.")
  let isIdle := (idle f).contains w && !member
  let isStrict := (strict f).contains w && !member && !l.free
  let inStatements := l.block || s.levels.isEmpty
  let misplaced := isStrict &&
    (l.bracket == some .round || l.bracket == some .square || f == .cpp && !inStatements
      || s.ended == .operand && !s.newline && inStatements)
  let unended := f == .rust && w == "let" && l.pending && s.ended != .nothing && s.words.isEmpty
    || f == .cpp && s.ended == .operand && s.last == some .atom
  if s.due && isIdle && !l.free || misplaced || unended
      || s.adjoins f && !member && !joining.contains w then none
  else
    let named := f == .script && ["class", "interface", "function", "enum"].contains w
    let ended :=
      if member then Ended.operand
      else if isIdle || (operatorWords f).contains w || w.startsWith "@" then .nothing
      else if f == .script && softWords.contains w && (!s.due || w == "async") then .soft
      else .operand
    let opens := wantsSemicolon f s w && !l.free
    let s := s.withLevel fun l => { l with
      named := l.named || named
      pending := (l.pending || opens) && !(f == .rust && w == "fn") }
    some { s.value (.word w) ended with words := w :: s.words.take 1 }

def sign (f : Family) (s : State) (w : String) : Option State :=
  let l := s.level
  let after : State := { s with ended := .nothing, last := some (.sign w), words := [],
                                newline := false }
  if w == "#include" then some { s with includes := true }
  else if l.free then some after
  else if w == ";" then
    if s.due then none
    else if l.bracket == some .round && !l.loose && f != .go then none
    else if l.bracket == some .square && f == .script then none
    else some (after.withLevel fun l => { l with pending := false, named := false })
  else if w == "," then
    if s.due || l.bracket == some .round && s.last == some (.opening .round) then none
    else some after
  else if s.due then if leading.contains w then some after else none
  else if (demands f).contains w && !leading.contains w && s.opens f then none
  else if f == .script && w == "/" && s.ended == .nothing then none
  else if (demands f).contains w && s.ended != .nothing then some { after with due := true }
  else if ["++", "--", "!"].contains w || w == "?" && f != .script then
    some { after with ended := s.ended }
  else some after

def opening (f : Family) (s : State) (b : Bracket) : Option State :=
  let l := s.level
  let named := match s.words.drop 1 with
    | [w] => w == "fn" || w == "func"
    | _ => false
  let bare := s.words.head?.any (bareWords f).contains
  let braced := f == .rust || f == .go
  let stray := !l.free && b == .curly &&
    (f == .script && l.bracket == some .round && s.ended == .operand && !l.named
      || braced && (l.bracket == some .round && l.parameters || named || bare))
  if stray then none
  else
    let invoked := f == .rust && s.last == some (.sign "!")
    let defined := f == .rust && s.words.drop 1 == ["macro_rules"]
    let condition := s.words.head?.any conditional.contains
    let loop := condition || s.words.head?.any ["for", "await"].contains
    let inner : Level := {
      bracket := some b
      block := b == .curly && opensBlock f s
      loose := b != .round || loop || f == .go
      parameters := b == .round && named
      free := l.free || invoked || defined || (f == .rust && s.last == some (.sign "#")) }
    let s := s.value (.opening b) .nothing
    some { s with levels := inner :: s.levels, due := f == .script && condition && b == .round }

def close (f : Family) (s : State) (bracket : Option Bracket) (shape : Shape) : Option State :=
  match s.levels with
  | l :: outer =>
    if (l.free || (!s.lacks f && !l.pending)) && l.bracket == bracket then
      let s := { s with levels := outer }.value shape .group
      let s := if l.block then s.withLevel fun l => { l with pending := false } else s
      some { s with last := some (if bracket == some .curly && !l.block then .atom else shape) }
    else none
  | [] => none

def step (f : Family) (s : State) (t : Token) : Option State :=
  match t.shape with
  | .word w => word f s w
  | .sign w => sign f s w
  | .opening b => opening f s b
  | .closing b => close f s (some b) (.closing b)
  | .enter _ =>
    let s := s.value t.shape .nothing
    some { s with levels := { bracket := none } :: s.levels }
  | .leave => close f s none .leave
  | .line => some { s with newline := true }
  | .unclosed _ | .stray => none
  | _ =>
    if s.includes then some { s with includes := false }
    else if s.adjoins f || f == .script && s.declares f then none
    else some (s.value t.shape .operand)

/-- A line end may end the statement before it. -/
def State.brokenOff (f : Family) (s : State) : Bool :=
  (f == .script || f == .go) && s.newline && !s.due && s.ended != .nothing

def State.postfixed (s : State) : Bool :=
  s.last == some (.sign "++") || s.last == some (.sign "--")

def ends (f : Family) (s : State) : Bool :=
  s.levels.isEmpty && !s.due && !s.top.pending && match f with
    | .cpp => s.fresh
    | .go => (s.fresh || s.ended != .nothing || s.postfixed) &&
      !(s.words.take 2).any ["var", "const", "type"].contains
    | _ => true

def rests (f : Family) (s : State) : Bool :=
  ends f s && (s.fresh || f == .go || f == .script && s.brokenOff f)

/-- A statement begins, after another one or after a line that may end one. -/
def begins (f : Family) (s : State) (t : Token) : Bool :=
  let newLine := s.brokenOff f && match t.shape with
    | .word _ | .literal _ | .atom => true
    | _ => false
  (s.levels.isEmpty || s.level.block) && !s.due && (s.fresh || newLine)

def supplies (f : Family) (s : State) (next : Option Shape) : List Shape :=
  let l := s.level
  let closing := l.bracket.toList.filter fun b => next.isSome || (b == .curly && l.block)
  let statement := (s.levels.isEmpty || l.block) && !s.fresh && s.ended != .nothing
  let semicolon := l.pending || f == .cpp && s.levels.isEmpty && !s.fresh
    || f == .script && statement && next.isSome
  let lacking := f == .script && s.lacks f && next.isSome
  closing.map Shape.closing ++ (if semicolon then [.sign ";"] else [])
    ++ if lacking then [.atom] else []

def outline (f : Family) : Outline State where
  initial := {}
  step := step f
  ends := ends f
  rests := rests f
  depth s := s.levels.length
  begins := begins f
  supplies := supplies f
  completes _ := false

end SourceWindow.Statement
