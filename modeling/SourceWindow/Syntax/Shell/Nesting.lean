import SourceWindow.Syntax.Outline

set_option autoImplicit false

namespace SourceWindow.Shell

/-- A compound command that is open, by what has to come next in it. -/
inductive Open where
  | bracket (b : Option Bracket)
  | array
  | test (double : Bool)
  | thenWord
  | doWord
  | fi
  | done
  | inWord
  | esac
  | brace
  deriving DecidableEq, Repr

structure Nesting where
  commands : List Open := []
  ready : Bool := true
  /-- A name with an equals sign ended at this byte. -/
  arrayAt : Option Nat := none
  /-- Brackets were opened after the name of a function, or closed, so that its body is due. -/
  names : Bool := false
  body : Bool := false
  deriving DecidableEq, Repr

def Nesting.busy (n : Nesting) : Nesting := { n with ready := false, arrayAt := none }

def Nesting.inTest (n : Nesting) : Bool :=
  match n.commands with
  | .test _ :: _ => true
  | _ => false

def Nesting.openWith (n : Nesting) (o : Open) (ready : Bool) : Nesting :=
  { n with commands := o :: n.commands, ready, arrayAt := none }

/-- A keyword that has to follow an open command, and what has to come after it. -/
def Nesting.turn (n : Nesting) (old : Open) (new : Option Open) (ready : Bool) : Option Nesting :=
  match n.commands with
  | o :: outer =>
    if o = old then
      some { n with commands := new.toList ++ outer, ready, arrayAt := none }
    else none
  | [] => none

def Nesting.keyword (n : Nesting) (w : String) : Option Nesting :=
  match w with
  | "if" => some (n.openWith .thenWord true)
  | "while" | "until" => some (n.openWith .doWord true)
  | "for" | "select" => some (n.openWith .doWord false)
  | "case" => some (n.openWith .inWord false)
  | "\x7b" => some (n.openWith .brace true)
  | "[" => some (n.openWith (.test false) false)
  | "[[" => some (n.openWith (.test true) false)
  | "then" => n.turn .thenWord (some .fi) true
  | "elif" => n.turn .fi (some .thenWord) true
  | "else" => n.turn .fi (some .fi) true
  | "fi" => n.turn .fi none false
  | "do" => n.turn .doWord (some .done) true
  | "done" => n.turn .done none false
  | "esac" => n.turn .esac none false
  | "\x7d" => n.turn .brace none false
  | "!" | "time" => some n
  | _ => some n.busy

def Nesting.follow (n : Nesting) (t : Token) : Option Nesting :=
  let inArray := n.commands.head? == some .array
  match t.shape with
  | .word w =>
    if inArray then some n
    else if w == "]" && n.commands.head? == some (.test false) then
      n.turn (.test false) none false
    else if w == "]]" && n.commands.head? == some (.test true) then n.turn (.test true) none false
    else if n.inTest then some n
    else if n.ready then
      (n.keyword w).map fun n =>
        if w.toList.getLast? == some '=' then { n with arrayAt := some t.stop } else n
    else if w == "in" && n.commands.head? == some .inWord then
      n.turn .inWord (some .esac) true
    else some { n.busy with
      arrayAt := if w.toList.getLast? == some '=' then some t.stop else none }
  | .sign w =>
    if n.commands.head? == some (.test true) then some n
    else if n.commands.head? == some (.test false) then none
    else if w == "<" || w == ">" || w == "<<<" then some n.busy
    else some { n with ready := true, arrayAt := none }
  | .line => if n.inTest then some n else some { n with ready := true, arrayAt := none }
  | .opening b =>
    if n.arrayAt = some t.start ∨ inArray then some (n.openWith .array false)
    else some { n.openWith (.bracket (some b)) true with
      names := !n.ready && t.stop = t.start + 1 }
  | .enter _ => some (n.openWith (.bracket none) true)
  | .closing b =>
    match n.commands with
    | .bracket (some b') :: outer =>
      if b = b' then some { n.busy with commands := outer, ready := true } else none
    | .array :: outer => some { n.busy with commands := outer }
    | .esac :: _ => some { n with ready := true }
    | _ => none
  | .leave =>
    match n.commands with
    | .bracket none :: outer => some { n.busy with commands := outer }
    | _ => none
  | .unclosed _ | .stray => none
  | _ => some n.busy

def Nesting.step (n : Nesting) (t : Token) : Option Nesting :=
  let body := n.names && t.shape == .closing .round || n.body && t.shape == .line
  (Nesting.follow { n with names := false } t).map fun (m : Nesting) => { m with body }

def Open.ending : Open → List Shape
  | .bracket (some b) => [.closing b]
  | .array => [.closing .round]
  | .fi => [.word "fi"]
  | .done => [.word "done"]
  | .esac => [.word "esac"]
  | .brace => [.word "\x7d"]
  | .test double => [.word (if double then "]]" else "]")]
  | _ => []

def Nesting.ends (n : Nesting) : Bool := n.commands.isEmpty && !n.body

def outline : Outline Nesting where
  initial := {}
  step := Nesting.step
  ends := Nesting.ends
  rests := Nesting.ends
  depth n := n.commands.length
  begins n _ := n.ready
  supplies n next :=
    if next.isNone || n.inTest then n.commands.head?.toList.flatMap Open.ending else []
  completes name := name == .string

end SourceWindow.Shell
