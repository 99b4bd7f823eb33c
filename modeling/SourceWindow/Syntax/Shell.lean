import SourceWindow.Syntax.Lexeme

set_option autoImplicit false

namespace SourceWindow.Shell

structure Document where
  mark : Text
  /-- The mark was written without quotes, so substitutions are made. -/
  live : Bool
  tabs : Bool
  deriving DecidableEq, Repr

inductive Frame where
  | string
  | document (d : Document)
  /-- A substitution of commands in parentheses; the depth counts those within. -/
  | commands (depth : Nat)
  | accents
  | braces
  deriving DecidableEq, Repr

structure State where
  frames : List Frame := []
  inWord : Bool := false
  awaited : List Document := []
  deriving DecidableEq, Repr

def State.push (s : State) (f : Frame) : State :=
  { s with frames := f :: s.frames, inWord := false }

def State.pop (s : State) : State := { s with frames := s.frames.drop 1, inWord := true }

def endsWord (c : Char) : Bool :=
  Lexeme.isBlankChar c || [';', '|', '&', '(', ')', '<', '>', '\x22', '\x27', '$', '\x60', '\\',
    '}'].contains c

def stringMarks : List Char := ['\x22', '\\', '$', '\x60']

def metaMarks : List Char := [';', '|', '&', '(', ')', '<', '>']

def quoteMarks : List Char := ['\x22', '\x27', '\\']

def escaped? (t : Text) : Option Nat := Lexeme.quoted? '\x27' Lexeme.never t

def dollar (s : State) (t : Text) : Lexeme State :=
  match t with
  | '(' :: '(' :: _ => ⟨.opening .round, 1, s.push (.commands 0)⟩
  | '(' :: _ => ⟨.opening .round, 1, s.push (.commands 0)⟩
  | '{' :: '#' :: _ => ⟨.enter .other, 2, s.push .braces⟩
  | '{' :: _ => ⟨.enter .other, 1, s.push .braces⟩
  | c :: _ =>
    let name := Lexeme.wordRest t
    let more := if 0 < name then name else if endsWord c then 0 else 1
    ⟨.atom, more, { s with inWord := true }⟩
  | [] => ⟨.atom, 0, { s with inWord := true }⟩

def inString (s : State) (c : Char) (t : Text) : Lexeme State :=
  if c = '\x22' then ⟨.leave, 0, s.pop⟩
  else if c = '\\' then ⟨.blank, 1, s⟩
  else if c = '$' ∧ t.head?.any (['(', '{'].contains ·) then dollar s t
  else if c = '\x60' then ⟨.enter .other, 0, s.push .accents⟩
  else
    let more := Lexeme.countWhile (fun d => !(stringMarks.contains d)) t
    ⟨.blank, more, s⟩

def endsDocument (d : Document) (t : Text) : Bool :=
  let line := t.takeWhile (· != '\n')
  let line := if line.getLast? = some '\r' then line.dropLast else line
  (if d.tabs then line.dropWhile (· == '\t') else line) == d.mark

/-- A token of a here-document; `c` begins a line or goes on in one. -/
def inDocument (s : State) (d : Document) (c : Char) (t : Text) : Lexeme State :=
  if c = '\n' ∧ endsDocument d t then
    let line := Lexeme.untilNewline t
    let s := { s.pop with inWord := false }
    match s.awaited with
    | [] => ⟨.blank, line, s⟩
    | next :: rest => ⟨.blank, line, { s with awaited := rest }.push (.document next)⟩
  else if d.live ∧ c = '\\' then ⟨.blank, 1, s⟩
  else if d.live ∧ c = '$' ∧ t.head?.any (['(', '{'].contains ·) then dollar s t
  else if d.live ∧ c = '\x60' then ⟨.enter .other, 0, s.push .accents⟩
  else ⟨.blank, 0, s⟩

def document (t : Text) : Document × Nat :=
  let tabs := t.head? = some '-'
  let t' := if tabs then t.drop 1 else t
  let gap := Lexeme.countWhile (fun c => c == ' ' || c == '\t') t'
  let word := (t'.drop gap).takeWhile fun c =>
    !Lexeme.isBlankChar c && !(metaMarks.contains c)
  let bare := word.filter fun c => !(quoteMarks.contains c)
  (⟨bare, bare.length = word.length, tabs⟩, (if tabs then 1 else 0) + gap + word.length)

def line (s : State) (t : Text) : Lexeme State :=
  match s.awaited with
  | [] => ⟨.line, 0, { s with inWord := false }⟩
  | d :: rest =>
    let s := { s with inWord := false, awaited := rest }
    if endsDocument d t then
      ⟨.line, Lexeme.untilNewline t, s⟩
    else ⟨.line, 0, s.push (.document d)⟩

def inCommand (s : State) (c : Char) (t : Text) : Lexeme State :=
  let after := { s with inWord := true }
  let apart := { s with inWord := false }
  if c = '\n' then line s t
  else if Lexeme.isBlankChar c then ⟨.blank, 0, apart⟩
  else if c = '#' ∧ !s.inWord then ⟨.blank, Lexeme.untilNewline t, s⟩
  else if c = '\\' then ⟨.atom, 1, after⟩
  else if c = '\x22' then
    if (Lexeme.quoted? '\x22' Lexeme.never t).isSome then ⟨.enter .string, 0, s.push .string⟩
    else ⟨.unclosed .string, t.length, after⟩
  else if c = '\x27' then
    match Lexeme.through? ['\x27'] t with
    | some n => ⟨.literal .rawString, n, after⟩
    | none => ⟨.unclosed .rawString, t.length, after⟩
  else if c = '$' then
    match t with
    | '\x27' :: t' =>
      match escaped? t' with
      | some n => ⟨.atom, n + 1, after⟩
      | none => ⟨.stray, t.length, after⟩
    | '\x22' :: _ => ⟨.atom, 0, after⟩
    | _ => dollar s t
  else if c = '\x60' then
    if s.frames.head? = some .accents then ⟨.leave, 0, s.pop⟩
    else ⟨.enter .other, 0, s.push .accents⟩
  else if c = '}' ∧ s.frames.head? = some .braces then ⟨.leave, 0, s.pop⟩
  else if c = '(' then
    match s.frames with
    | .commands depth :: frames =>
      ⟨.opening .round, 0, { apart with frames := .commands (depth + 1) :: frames }⟩
    | _ => ⟨.opening .round, 0, apart⟩
  else if c = ')' then
    match s.frames with
    | .commands 0 :: _ => ⟨.closing .round, 0, s.pop⟩
    | .commands (depth + 1) :: frames =>
      ⟨.closing .round, 0, { apart with frames := .commands depth :: frames }⟩
    | _ => ⟨.closing .round, 0, apart⟩
  else if c = '<' ∧ ['<', '<'].isPrefixOf t then ⟨.sign "<<<", 2, apart⟩
  else if c = '<' ∧ t.head? = some '<' then
    let (d, length) := document (t.drop 1)
    ⟨.atom, 1 + length, { apart with awaited := s.awaited ++ [d] }⟩
  else if c = ';' ∧ t.head? = some ';' then ⟨.sign ";;", 1, apart⟩
  else if c = '|' ∧ t.head? = some '|' then ⟨.sign "||", 1, apart⟩
  else if c = '&' ∧ t.head? = some '&' then ⟨.sign "&&", 1, apart⟩
  else if [';', '|', '&', '<', '>'].contains c then ⟨.sign (String.ofList [c]), 0, apart⟩
  else
    let rest := if s.frames.head? = some .braces then Lexeme.countWhile (fun d =>
        !endsWord d) t
      else Lexeme.countWhile (fun d => d == '}' || !endsWord d) t
    let w := String.ofList (c :: t.take rest)
    ⟨if s.inWord then .atom else .word w, rest, after⟩

def read : Lexer State := fun s c t =>
  match s.frames with
  | .string :: _ => inString s c t
  | .document d :: _ => inDocument s d c t
  | _ => inCommand s c t

end SourceWindow.Shell
