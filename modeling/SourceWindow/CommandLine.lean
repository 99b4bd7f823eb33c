import SourceWindow.Settings
import SourceWindow.Settings.Assignments

/-!
The command line: arguments to a request, and a request to what the program writes. An option's
value and the path are checked when the next argument begins, but an argument that is not known is
reported first.
-/

set_option autoImplicit false

namespace SourceWindow.CommandLine

inductive Flag where
  | start
  | stop
  | literalLimit
  | grammar
  | noTruncate
  | strict
  | help
  | version
  deriving DecidableEq, Repr

namespace Flag

def all : List Flag :=
  [.start, .stop, .literalLimit, .grammar, .noTruncate, .strict, .help, .version]

def longName : Flag → Text
  | .start => Text.ofString "start"
  | .stop => Text.ofString "end"
  | .literalLimit => Text.ofString "char-limit"
  | .grammar => Text.ofString "grammar"
  | .noTruncate => Text.ofString "no-truncate"
  | .strict => Text.ofString "strict"
  | .help => Text.ofString "help"
  | .version => Text.ofString "version"

def shortName? : Flag → Option Char
  | .help => some 'h'
  | .version => some 'V'
  | _ => none

def valueName? : Flag → Option Text
  | .start => some (Text.ofString "START")
  | .stop => some (Text.ofString "END")
  | .literalLimit => some (Text.ofString "CHAR_LIMIT")
  | .grammar => some (Text.ofString "GRAMMAR")
  | _ => none

def isNumeric : Flag → Bool
  | .start | .stop | .literalLimit => true
  | _ => false

def shown (f : Flag) : Text :=
  ['-', '-'] ++ f.longName ++ f.valueName?.elim [] fun name => [' ', '<'] ++ name ++ ['>']

end Flag

structure Request where
  path : Option Text := none
  start : Option Int := none
  stop : Option Int := none
  literalLimit : Option Int := none
  grammar : Option Grammar := none
  noTruncate : Bool := false
  strict : Bool := false
  deriving DecidableEq, Repr

inductive UsageError where
  | unexpected (argument : Text)
  | invalidValue (value : Text) (flag : Flag) (cause : Text)
  | unexpectedValue (value : Text) (flag : Flag)
  | valueRequired (shown : Text)
  | repeated (flag : Flag)
  | missingPath
  deriving DecidableEq, Repr

def pathShown : Text := Text.ofString "<PATH>"

def UsageError.message (e : UsageError) : Text :=
  (Text.ofString "error: " ++ body).takeWhile (· != '\n')
where
  body : Text := match e with
    | .unexpected argument =>
      Text.ofString "unexpected argument '" ++ argument ++ Text.ofString "' found"
    | .invalidValue value flag cause =>
      Text.ofString "invalid value '" ++ value ++ Text.ofString "' for '" ++ flag.shown
        ++ Text.ofString "': " ++ cause
    | .unexpectedValue value flag =>
      Text.ofString "unexpected value '" ++ value ++ Text.ofString "' for '" ++ flag.shown
        ++ Text.ofString "' found; no more were expected"
    | .valueRequired shown =>
      Text.ofString "a value is required for '" ++ shown
        ++ Text.ofString "' but none was supplied"
    | .repeated flag =>
      Text.ofString "the argument '" ++ flag.shown
        ++ Text.ofString "' cannot be used multiple times"
    | .missingPath => Text.ofString "the following required arguments were not provided:"

inductive Halt where
  | help
  | version
  | usage (e : UsageError)
  deriving DecidableEq, Repr

/-- An argument whose value is still to be checked. -/
inductive Pending where
  | nothing
  | option (flag : Flag) (value : Option Text)
  | path (value : Text)
  deriving DecidableEq, Repr

structure State where
  request : Request := {}
  pending : Pending := .nothing
  trailing : Bool := false
  pathSeen : Bool := false
  deriving DecidableEq, Repr

namespace State

def integer (f : Flag) (value : Text) : Except Halt Int :=
  (IntegerRange.signed64.read value).mapError fun cause =>
    .usage (.invalidValue value f cause.message)

def enter (s : State) (f : Flag) (value : Text) : Except Halt State := do
  let r := s.request
  let once (given : Bool) : Except Halt Unit :=
    if given then .error (.usage (.repeated f)) else .ok ()
  match f with
  | .start =>
    once r.start.isSome
    pure { s with request := { r with start := some (← integer f value) } }
  | .stop =>
    once r.stop.isSome
    pure { s with request := { r with stop := some (← integer f value) } }
  | .literalLimit =>
    once r.literalLimit.isSome
    pure { s with request := { r with literalLimit := some (← integer f value) } }
  | .grammar =>
    once r.grammar.isSome
    match Grammar.ofName? value with
    | some g => pure { s with request := { r with grammar := some g } }
    | none => throw (.usage (.invalidValue value f (Grammar.unknownMessage value)))
  | .noTruncate =>
    once r.noTruncate
    pure { s with request := { r with noTruncate := true } }
  | .strict =>
    once r.strict
    pure { s with request := { r with strict := true } }
  | .help => throw .help
  | .version => throw .version

def settle (s : State) : Except Halt State :=
  let cleared := { s with pending := .nothing }
  match s.pending with
  | .nothing => .ok s
  | .option f none => .error (.usage (.valueRequired f.shown))
  | .option f (some value) => cleared.enter f value
  | .path [] => .error (.usage (.valueRequired pathShown))
  | .path value => .ok { cleared with request := { s.request with path := some value } }

def unexpected {α : Type} (argument : Text) : Except Halt α :=
  .error (.usage (.unexpected argument))

/-- Digits with at most one point after the first and an exponent mark that does not end them. -/
def isNumber (t : Text) : Bool := go false false true t
where
  go (point exponent first : Bool) : Text → Bool
    | [] => true
    | c :: t =>
      if c.isDigit then go point exponent false t
      else if c = '.' then !point && !exponent && !first && go true exponent false t
      else if c = 'e' ∨ c = 'E' then !exponent && !first && t != [] && go point true false t
      else false

def long (s : State) (t : Text) : Except Halt State := do
  let name := t.takeWhile (· != '=')
  let value := match t.dropWhile (· != '=') with
    | _ :: value => some value
    | [] => none
  match Flag.all.find? (·.longName == name) with
  | none => unexpected (['-', '-'] ++ name)
  | some f =>
    match f.valueName?, value with
    | some _, some value => (← s.settle).enter f value
    | some _, none => pure { ← s.settle with pending := .option f none }
    | none, some value => throw (.usage (.unexpectedValue value f))
    | none, none => (← s.settle).enter f []

def short (s : State) (c : Char) : Except Halt State := do
  match Flag.all.find? (·.shortName? == some c) with
  | none => unexpected ['-', c]
  | some f => (← s.settle).enter f []

def path (s : State) (t : Text) : Except Halt State := do
  if s.pathSeen then unexpected t
  else
    let s ← s.settle
    pure { s with pending := .path t, pathSeen := true }

def plain (s : State) (t : Text) : Except Halt State :=
  match s.pending with
  | .option f none => .ok { s with pending := .option f (some t) }
  | _ => s.path t

def takesNumber (s : State) : Bool :=
  match s.pending with
  | .option f none => f.isNumeric
  | _ => false

def step (s : State) (argument : Text) : Except Halt State :=
  if s.trailing then s.path argument
  else match argument with
    | ['-', '-'] => .ok { s with trailing := true }
    | '-' :: '-' :: t => s.long t
    | '-' :: c :: t =>
      if s.takesNumber && isNumber (c :: t) then s.plain argument else s.short c
    | t => s.plain t

end State

def parse (arguments : List Text) : Except Halt Request := do
  let s ← (← arguments.foldlM State.step {}).settle
  match s.request.path with
  | none => throw (.usage .missingPath)
  | some _ => pure s.request

namespace Request

def settings (r : Request) (s : Settings) : Settings :=
  { s with
    literalLimit := if r.noTruncate then -1 else r.literalLimit.getD s.literalLimit
    grammar := r.grammar <|> s.grammar
    strict := s.strict || r.strict }

def first (r : Request) : Int := r.start.getD 1

def last (r : Request) : Int := r.stop.getD IntegerRange.signed64.greatest

end Request

structure Outcome where
  code : Nat
  output : Text := []
  errors : Text := []
  deriving DecidableEq, Repr

def helpLines : List String := [
  "Read a window of a source file with over-long string literals collapsed",
  "",
  "Usage: smart-read [OPTIONS] <PATH>",
  "",
  "Arguments:",
  "  <PATH>  File to read",
  "",
  "Options:",
  "      --start <START>            First line to show (1-based) [default: 1]",
  "      --end <END>                Last line to show (inclusive); defaults to the end of the file",
  "      --char-limit <CHAR_LIMIT>  Truncate literals longer than this many bytes; negative disables",
  "      --grammar <GRAMMAR>        Grammar to parse with, overriding the file extension",
  "      --no-truncate              Show literals in full",
  "      --strict                   Leave sources with syntax errors untruncated",
  "  -h, --help                     Print help",
  "  -V, --version                  Print version"]

def helpText : Text := helpLines.flatMap fun line => Text.ofString line ++ ['\n']

def versionText : Text := Text.ofString "smart-read 0.1.0\n"

def Outcome.ofHalt : Halt → Outcome
  | .help => { code := 0, output := helpText }
  | .version => { code := 0, output := versionText }
  | .usage e => { code := 2, errors := e.message }

def indent (t : Text) : Text :=
  List.replicate 4 ' ' ++ t.flatMap fun c => if c = '\n' then '\n' :: List.replicate 4 ' ' else [c]

def Outcome.ofSettingsError (e : SettingsError) : Outcome where
  code := 1
  errors := Text.ofString "Error: " ++ e.context ++ Text.ofString "\n\nCaused by:\n"
    ++ indent e.cause ++ ['\n']

structure Job where
  path : Text
  first : Int
  last : Int
  settings : Settings
  deriving DecidableEq, Repr

/-- The job of a list of arguments in an environment, or what ends the program before it. -/
def plan (arguments : List Text) (env : Assignments.Environment) : Except Outcome Job := do
  let request ← (parse arguments).mapError Outcome.ofHalt
  let settings ← (Settings.ofLookup env.get?).mapError Outcome.ofSettingsError
  pure ⟨request.path.getD [], request.first, request.last, request.settings settings⟩

def Job.outcome (j : Job) (content : Except ReadFault (List UInt8)) : Outcome where
  code := 0
  output := j.settings.renderRead j.path j.first j.last content ++ ['\n']

def run (arguments : List Text) (env : Assignments.Environment) (root : Entry) : Outcome :=
  match plan arguments (Assignments.loadFrom env root) with
  | .error outcome => outcome
  | .ok job => job.outcome (root.read job.path job.settings.maxFileBytes)

end SourceWindow.CommandLine
