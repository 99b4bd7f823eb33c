import SourceWindow.Files.Directory
import SourceWindow.Scanner
import SourceWindow.Text.Utf8
import SourceWindow.Truncation
import SourceWindow.Window

set_option autoImplicit false

namespace SourceWindow

inductive RenderError where
  | unavailable (reason : Text)
  | unparsed (cause : ParseError)
  | notFound (path : Text)
  | unreadable (path : Text) (fault : ReadFault)
  deriving DecidableEq, Repr

namespace RenderError

def message : RenderError → Text
  | .unavailable reason => Text.ofString "literal scanning unavailable: " ++ reason
  | .unparsed cause => Text.ofString "parse failure: " ++ cause.message
  | .notFound path => Text.ofString "file not found: " ++ path
  | .unreadable path fault =>
    Text.ofString "cannot read " ++ path ++ [':', ' '] ++ fault.message

def userMessage : RenderError → Text
  | .unavailable reason => Text.ofString "⚠️ Literal truncation unavailable: " ++ reason
  | .unparsed cause => Text.ofString "⚠️ AST Warning: " ++ cause.message
  | .notFound path => Text.ofString "❌ Error: File not found: " ++ path
  | .unreadable _ fault => Text.ofString "❌ Error reading file: " ++ fault.message

def ofReadFault (path : Text) : ReadFault → RenderError
  | .missing => .notFound path
  | fault => .unreadable path fault

end RenderError

/-- Anything that answers with the literals of a text, and may change as it answers. -/
structure LiteralSource (σ : Type) where
  scan : σ → Text → Except ParseError (List LiteralSpan) × σ

def Scanner.toSource (s : Scanner) : LiteralSource Unit := ⟨fun _ t => (s.scan t, ())⟩

inductive Capability (σ : Type) where
  | available (source : LiteralSource σ) (state : σ)
  | unavailable (reason : Text)

def Capability.isAvailable {σ : Type} : Capability σ → Bool
  | .available .. => true
  | .unavailable _ => false

structure Renderer (σ : Type) where
  capability : Capability σ
  limit : TruncationLimit := .standard

def Capability.ofConfig (c : LanguageConfig) (policy : FaultPolicy) : Capability Unit :=
  match c.unknownNode? with
  | none => .available (Scanner.toSource ⟨c, policy⟩) ()
  | some u => .unavailable (c.setupMessage u)

def Capability.ofGrammar (g : Grammar) (policy : FaultPolicy) : Capability Unit :=
  .ofConfig (.ofGrammar g) policy

/-- Truncation with the source itself in place of an edit that met no range of it. -/
def truncateLiterals (source : Text) (spans : List LiteralSpan) (limit : TruncationLimit) :
    Truncation :=
  (truncate? source spans limit).getD ⟨source, [], 0⟩

namespace Renderer

variable {σ : Type}

/-- Truncates the literals that the source finds. With truncation disabled it is not asked. -/
def truncate (r : Renderer σ) (t : Text) : Except RenderError Truncation × Renderer σ :=
  if r.limit = .disabled then (.ok (truncateLiterals t [] r.limit), r)
  else match r.capability with
    | .unavailable reason => (.error (.unavailable reason), r)
    | .available source state =>
      let (answer, state) := source.scan state t
      let r := { r with capability := .available source state }
      match answer with
      | .ok spans => (.ok (truncateLiterals t spans r.limit), r)
      | .error cause => (.error (.unparsed cause), r)

def render (r : Renderer σ) (t : Text) (first last : Int) : Text × Renderer σ :=
  match r.truncate t with
  | (.ok truncation, r) => (truncation.text.window first last, r)
  | (.error e, r) => (e.userMessage ++ ['\n'] ++ t.window first last, r)

end Renderer

def renderText (t : Text) (first last limit : Int) : Text :=
  let renderer : Renderer Unit := ⟨.ofGrammar .javascript .tolerate, .ofInt limit⟩
  (renderer.render t first last).1

/-- What a file's bytes hold, with replacement characters where they are not UTF-8. -/
def decodeSource (path : Text) : Except ReadFault (List UInt8) → Except RenderError Text
  | .ok bytes => .ok (Utf8.decode bytes)
  | .error fault => .error (.ofReadFault path fault)

def readSource (root : Entry) (path : Text) (limit : Option Nat) : Except RenderError Text :=
  decodeSource path (root.read path limit)

end SourceWindow
