import SourceWindow.Files.Directory
import SourceWindow.Text.Blank
import SourceWindow.Text.Utf8

/-!
Files of variable assignments, one a line, with comments, quotes, escapes and references to other
variables. Reading stops at the first line that is no assignment; those before it count. Variables
that are set already keep their values.
-/

set_option autoImplicit false

namespace SourceWindow.Assignments

abbrev Environment := List (Text × Text)

def Environment.get? (env : Environment) (name : Text) : Option Text :=
  (env.find? (·.1 == name)).map (·.2)

/-- Where a physical line leaves the logical line that it belongs to. -/
inductive Fold where
  | complete
  | escape
  | strong
  | strongEscape
  | weak
  | weakEscape
  | blank
  deriving DecidableEq, Repr

namespace Fold

def outside (c : Char) : Fold :=
  if isBlank c && c != '\n' && c != '\r' then .blank
  else if c = '\\' then .escape
  else if c = '\x22' then .weak
  else if c = '\x27' then .strong
  else .complete

def next (c : Char) : Fold → Fold
  | .complete => outside c
  | .blank => if isBlank c then .complete else outside c
  | .escape => .complete
  | .weak => if c = '\\' then .weakEscape else if c = '\x22' then .complete else .weak
  | .weakEscape => .weak
  | .strong => if c = '\\' then .strongEscape else if c = '\x27' then .complete else .strong
  | .strongEscape => .strong

def run (here : Nat) : Fold → Text → Fold × Option Nat
  | fold, [] => (fold, none)
  | fold, c :: t =>
    if fold = .blank ∧ c = '#' then (fold, some here)
    else run (here + c.utf8Size) (fold.next c) t

end Fold

def physicalLines : Text → List Text
  | [] => []
  | c :: t =>
    if c = '\n' then ['\n'] :: physicalLines t
    else match physicalLines t with
      | [] => [[c]]
      | line :: lines => (c :: line) :: lines

def dropLineEnd (t : Text) : Text :=
  if t.getLast? = some '\n' then
    let t := t.dropLast
    if t.getLast? = some '\r' then t.dropLast else t
  else t

/-- Logical lines, which take in further physical lines while a quote is open; none in place of one
that the text ends in. A comment cuts its logical line at its own offset. -/
def logicalLines (sofar : Text) (fold : Fold) : List Text → List (Option Text)
  | [] => if fold = .complete then [] else [none]
  | line :: lines =>
    let whole := sofar ++ line
    if (whole.trimStart).head? = some '#' then some [] :: logicalLines [] .complete lines
    else match fold.run 0 line with
      | (_, some cut) =>
        some ((whole.splitAt? cut).elim whole (·.1)) :: logicalLines [] .complete lines
      | (.complete, none) => some (dropLineEnd whole) :: logicalLines [] .complete lines
      | (stillOpen, none) => logicalLines whole stillOpen lines

structure Reference where
  name : Text
  braced : Bool

structure Value where
  output : Text := []
  strong : Bool := false
  weak : Bool := false
  escaped : Bool := false
  ended : Bool := false
  reference : Option Reference := none

namespace Value

def isNameChar (c : Char) : Bool := c.isAlphanum

def push (v : Value) (c : Char) : Value := { v with output := v.output ++ [c] }

def resolve (lookup : Text → Text) (v : Value) : Value :=
  match v.reference with
  | some r => { v with output := v.output ++ lookup r.name, reference := none }
  | none => v

def stepReference (lookup : Text → Text) (v : Value) (r : Reference) (c : Char) : Value :=
  if isNameChar c then { v with reference := some { r with name := r.name ++ [c] } }
  else if r.braced then
    if c = '\x7d' then v.resolve lookup
    else { v with reference := some { r with name := r.name ++ [c] } }
  else if c = '\x7b' ∧ r.name = [] then { v with reference := some ⟨[], true⟩ }
  else
    let v := v.resolve lookup
    if c = '$' then { v with reference := some ⟨[], false⟩ } else v.push c

/-- One character of a value; none if it may not stand there. -/
def step (lookup : Text → Text) (v : Value) (c : Char) : Option Value :=
  if v.ended then if c = ' ' ∨ c = '\t' then some v else none
  else if v.escaped then
    let v := { v with escaped := false }
    if c = '\\' ∨ c = '\x27' ∨ c = '\x22' ∨ c = '$' ∨ c = ' ' then some (v.push c)
    else if c = 'n' then some (v.push '\n')
    else none
  else if v.strong then
    if c = '\x27' then some { v with strong := false } else some (v.push c)
  else match v.reference with
    | some r => some (v.stepReference lookup r c)
    | none =>
      if c = '$' then some { v with reference := some ⟨[], false⟩ }
      else if v.weak then
        if c = '\x22' then some { v with weak := false }
        else if c = '\\' then some { v with escaped := true }
        else some (v.push c)
      else if c = '\x27' then some { v with strong := true }
      else if c = '\x22' then some { v with weak := true }
      else if c = '\\' then some { v with escaped := true }
      else if c = ' ' ∨ c = '\t' then some { v with ended := true }
      else some (v.push c)

def run (lookup : Text → Text) : Value → Text → Option Value
  | v, [] => some v
  | v, c :: t =>
    if v.ended ∧ c = '#' then some v
    else match v.step lookup c with
      | some v => run lookup v t
      | none => none

def read? (lookup : Text → Text) (t : Text) : Option Text :=
  match run lookup {} t with
  | none => none
  | some v =>
    if v.strong || v.weak || v.reference.any (·.braced) then none
    else some (v.resolve lookup).output

end Value

def isKeyStart (c : Char) : Bool := c.isAlpha || c == '_'

def isKeyChar (c : Char) : Bool := c.isAlphanum || c == '_' || c == '.'

def key? (t : Text) : Option (Text × Text) :=
  if t.head?.any isKeyStart then
    some (t.takeWhile isKeyChar, Text.trimStart (t.dropWhile isKeyChar))
  else none

def afterEquals? : Text → Option Text
  | '=' :: t => some (Text.trimStart t)
  | _ => none

def assignment? (t : Text) : Option (Text × Text) := do
  let (key, rest) ← key? t
  match afterEquals? rest with
  | some value => some (key, value)
  | none =>
    if key = Text.ofString "export" then
      let (key, rest) ← key? rest
      let value ← afterEquals? rest
      some (key, value)
    else none

/-- Reads logical lines into the environment. References see it first, and then the values that the
file gave to variables that were set already. -/
def loadLines (env given : Environment) : List (Option Text) → Environment
  | [] => env
  | none :: _ => env
  | some line :: lines =>
    let line := line.trimEnd.trimStart
    if line = [] ∨ line.head? = some '#' then loadLines env given lines
    else match assignment? line with
      | none => env
      | some (key, rest) =>
        let lookup name := (env.get? name).getD ((given.get? name).getD [])
        let value? := if rest = [] ∨ rest.head? = some '#' then some [] else Value.read? lookup rest
        match value? with
        | none => env
        | some value =>
          let env := if (env.get? key).isSome then env else env ++ [(key, value)]
          loadLines env ((key, value) :: given) lines

def load (env : Environment) (content : List UInt8) : Environment :=
  let t := Utf8.decode content
  let t := if t.head? = some '\uFEFF' then t.drop 1 else t
  loadLines env [] (logicalLines [] .complete (physicalLines t))

def fileName : Text := Text.ofString ".env"

def loadFrom (env : Environment) (root : Entry) : Environment :=
  match root.read fileName none with
  | .ok content => load env content
  | .error _ => env

end SourceWindow.Assignments
