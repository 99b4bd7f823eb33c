import SourceWindow.Text.Blank
import SourceWindow.Text.Lowercase

set_option autoImplicit false

namespace SourceWindow

inductive Grammar where
  | javascript
  | typescript
  | tsx
  | python
  | rust
  | go
  | cpp
  | json
  | bash
  deriving DecidableEq, Repr

namespace Grammar

def all : List Grammar :=
  [.javascript, .typescript, .tsx, .python, .rust, .go, .cpp, .json, .bash]

def standard : Grammar := .javascript

def name : Grammar → Text
  | .javascript => Text.ofString "javascript"
  | .typescript => Text.ofString "typescript"
  | .tsx => Text.ofString "tsx"
  | .python => Text.ofString "python"
  | .rust => Text.ofString "rust"
  | .go => Text.ofString "go"
  | .cpp => Text.ofString "cpp"
  | .json => Text.ofString "json"
  | .bash => Text.ofString "bash"

def variantName : Grammar → Text
  | .javascript => Text.ofString "JavaScript"
  | .typescript => Text.ofString "TypeScript"
  | .tsx => Text.ofString "Tsx"
  | .python => Text.ofString "Python"
  | .rust => Text.ofString "Rust"
  | .go => Text.ofString "Go"
  | .cpp => Text.ofString "Cpp"
  | .json => Text.ofString "Json"
  | .bash => Text.ofString "Bash"

def names : Grammar → List String
  | .javascript => ["javascript", "js", "jsx", "mjs", "cjs"]
  | .typescript => ["typescript", "ts", "mts", "cts"]
  | .tsx => ["tsx"]
  | .python => ["python", "py", "pyi"]
  | .rust => ["rust", "rs"]
  | .go => ["go", "golang"]
  | .cpp => ["cpp", "c++", "cc", "cxx", "hpp", "hh"]
  | .json => ["json"]
  | .bash => ["bash", "shell", "sh", "zsh"]

def extensions : Grammar → List String
  | .javascript => ["js", "jsx", "mjs", "cjs"]
  | .typescript => ["ts", "mts", "cts"]
  | .tsx => ["tsx"]
  | .python => ["py", "pyi"]
  | .rust => ["rs"]
  | .go => ["go"]
  | .cpp => ["cpp", "cc", "cxx", "hpp", "hh"]
  | .json => ["json"]
  | .bash => ["sh", "bash", "zsh"]

def goesBy (g : Grammar) (name : Text) : Bool :=
  g.names.any (Text.ofString · == name)

def hasExtension (g : Grammar) (extension : Text) : Bool :=
  g.extensions.any (Text.ofString · == extension)

def dropDot : Text → Text
  | '.' :: t => t
  | t => t

/-- The grammar of a name in any case, with white space around it and one dot before it. -/
def ofName? (name : Text) : Option Grammar :=
  all.find? (·.goesBy (dropDot name.trim.lowercase))

/-- The grammar of a file extension in any case, with or without its dot. -/
def ofExtension? (extension : Text) : Option Grammar :=
  all.find? (·.hasExtension (dropDot extension).lowercase)

def unknownMessage (name : Text) : Text :=
  Text.ofString "unknown grammar '" ++ name ++ ['\x27']

def knownExtensions : List Text := all.flatMap fun g => g.extensions.map Text.ofString

end Grammar
end SourceWindow
