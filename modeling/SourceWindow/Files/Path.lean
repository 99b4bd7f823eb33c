import SourceWindow.Grammar

set_option autoImplicit false

namespace SourceWindow.Path

def splitOn (separator : Char) : Text → List Text
  | [] => [[]]
  | c :: t =>
    if c = separator then [] :: splitOn separator t
    else match splitOn separator t with
      | [] => [[c]]
      | part :: parts => (c :: part) :: parts

def components (path : Text) : List Text :=
  (splitOn '/' path).filter fun part => part != [] && part != ['.']

/-- The last component, unless it is the parent directory. -/
def fileName? (path : Text) : Option Text :=
  match (components path).getLast? with
  | some name => if name = ['.', '.'] then none else some name
  | none => none

/-- What follows the last dot of the file name, unless the name has no other text before it. -/
def extension? (path : Text) : Option Text := do
  let name ← fileName? path
  let after := (name.reverse.takeWhile (· != '.')).reverse
  let before := name.take (name.length - after.length - 1)
  if after.length = name.length ∨ before = [] then none else some after

def registered? (path : Text) : Option Grammar := (extension? path).bind Grammar.ofExtension?

def grammar (path : Text) (fallback : Grammar) : Grammar := (registered? path).getD fallback

end SourceWindow.Path
