import SourceWindow.Files.Path

set_option autoImplicit false

namespace SourceWindow

inductive Entry where
  | file (content : List UInt8)
  | directory (entries : List (Text × Entry))

namespace Entry

def empty : Entry := .directory []

def child? : Entry → Text → Option Entry
  | .file _, _ => none
  | .directory entries, name => (entries.find? (·.1 == name)).map (·.2)

def isDirectory : Entry → Bool
  | .directory _ => true
  | .file _ => false

def put (entry : Entry) : List Text → Entry → Entry
  | [], _ => entry
  | name :: path, .directory entries =>
    let below := ((entries.find? (·.1 == name)).map (·.2)).getD empty
    .directory ((name, entry.put path below) :: entries.filter (·.1 != name))
  | _, other => other

def makeDirectory : List Text → Entry → Entry
  | [], root => root
  | name :: path, .directory entries =>
    let below := ((entries.find? (·.1 == name)).map (·.2)).getD empty
    .directory ((name, makeDirectory path below) :: entries.filter (·.1 != name))
  | _, other => other

end Entry

inductive ReadFault where
  | missing
  | isDirectory
  | notDirectory
  | nameTooLong
  | nulInPath
  | tooLarge (size limit : Nat)
  | other (reason : Text)
  deriving DecidableEq, Repr

def ReadFault.message : ReadFault → Text
  | .missing => Text.ofString "No such file or directory (os error 2)"
  | .isDirectory => Text.ofString "Is a directory (os error 21)"
  | .notDirectory => Text.ofString "Not a directory (os error 20)"
  | .nameTooLong => Text.ofString "File name too long (os error 36)"
  | .nulInPath => Text.ofString "file name contained an unexpected NUL byte"
  | .tooLarge size limit =>
    Text.ofString "file too large (" ++ Text.decimal size ++ Text.ofString " bytes, limit "
      ++ Text.decimal limit ++ [')']
  | .other reason => reason

namespace Entry

def nameLimit : Nat := 255

def pathLimit : Nat := 4096

/-- Walks components from `here`, whose ancestors are `above`. An empty component and a dot stay,
but ask for a directory. The parent of the top is an empty directory. -/
def walk (above : List Entry) (here : Entry) : List Text → Except ReadFault Entry
  | [] => .ok here
  | name :: path =>
    if !here.isDirectory then .error .notDirectory
    else if name = [] ∨ name = ['.'] then walk above here path
    else if name = ['.', '.'] then
      match above with
      | parent :: above => walk above parent path
      | [] => walk [] empty path
    else if nameLimit < name.size then .error .nameTooLong
    else match here.child? name with
      | some next => walk (here :: above) next path
      | none => .error .missing

def lookup (root : Entry) (path : Text) : Except ReadFault Entry :=
  if path.contains '\x00' then .error .nulInPath
  else if path = [] then .error .missing
  else if pathLimit ≤ path.size then .error .nameTooLong
  else
    let start := if path.head? = some '/' then empty else root
    walk [] start (Path.splitOn '/' path)

/-- Size as the file system tells it; a directory takes one block. -/
def size : Entry → Nat
  | .file content => content.length
  | .directory _ => 4096

/-- The bytes at a path, refused above a size limit before they are read. -/
def read (root : Entry) (path : Text) (limit : Option Nat) : Except ReadFault (List UInt8) := do
  let entry ← root.lookup path
  match limit with
  | some limit => if limit < entry.size then throw (.tooLarge entry.size limit)
  | none => pure ()
  match entry with
  | .file content => pure content
  | .directory _ => throw .isDirectory

end Entry
end SourceWindow
