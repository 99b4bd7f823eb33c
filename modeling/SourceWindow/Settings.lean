import SourceWindow.Renderer
import SourceWindow.Text.Integer

/-!
Settings from variables. Unset and blank variables leave the standard value, and the first invalid
one, in a fixed order, is the error.
-/

set_option autoImplicit false

namespace SourceWindow

structure Settings where
  literalLimit : Int := TruncationLimit.standardBytes
  /-- For paths whose extension is missing or unknown. -/
  defaultGrammar : Grammar := .standard
  /-- For every path, whatever its extension. -/
  grammar : Option Grammar := none
  maxFileBytes : Option Nat := none
  strict : Bool := false
  deriving DecidableEq, Repr

inductive SettingsError where
  | literalLimit (raw : Text) (cause : IntegerFault)
  | grammar (name : Text)
  | maxFileBytes (raw : Text) (cause : IntegerFault)
  deriving DecidableEq, Repr

namespace Settings

def literalLimitVariable : Text := Text.ofString "SMART_READ_CHAR_LIMIT"

def grammarVariable : Text := Text.ofString "SMART_READ_GRAMMAR"

def maxFileBytesVariable : Text := Text.ofString "SMART_READ_MAX_FILE_BYTES"

end Settings

namespace SettingsError

def context : SettingsError → Text
  | .literalLimit raw _ =>
    Settings.literalLimitVariable ++ Text.ofString " must be an integer, got '" ++ raw ++ ['\x27']
  | .grammar _ => Text.ofString "invalid " ++ Settings.grammarVariable
  | .maxFileBytes raw _ =>
    Settings.maxFileBytesVariable ++ Text.ofString " must be a byte count, got '" ++ raw
      ++ ['\x27']

def cause : SettingsError → Text
  | .literalLimit _ cause | .maxFileBytes _ cause => cause.message
  | .grammar name => Grammar.unknownMessage name

def message (e : SettingsError) : Text := e.context ++ [':', ' '] ++ e.cause

end SettingsError

namespace Settings

/-- The value of a variable, unless it is blank. -/
def value? (lookup : Text → Option Text) (name : Text) : Option Text :=
  (lookup name).filter fun raw => raw.trim != []

def readLiteralLimit (raw : Text) : Except SettingsError Int :=
  (IntegerRange.signed64.read raw.trim).mapError (.literalLimit raw)

def readGrammar (raw : Text) : Except SettingsError Grammar :=
  match Grammar.ofName? raw.trim with
  | some g => .ok g
  | none => .error (.grammar raw.trim)

def readMaxFileBytes (raw : Text) : Except SettingsError Nat :=
  (IntegerRange.unsigned64.read raw.trim).map Int.toNat |>.mapError (.maxFileBytes raw)

def ofLookup (lookup : Text → Option Text) : Except SettingsError Settings := do
  let literalLimit ← (value? lookup literalLimitVariable).mapM readLiteralLimit
  let defaultGrammar ← (value? lookup grammarVariable).mapM readGrammar
  let maxFileBytes ← (value? lookup maxFileBytesVariable).mapM readMaxFileBytes
  pure {
    literalLimit := literalLimit.getD TruncationLimit.standardBytes
    defaultGrammar := defaultGrammar.getD .standard
    maxFileBytes }

def policy (s : Settings) : FaultPolicy := if s.strict then .reject else .tolerate

def grammarFor (s : Settings) (path : Text) : Grammar :=
  s.grammar.getD (Path.grammar path s.defaultGrammar)

def renderRead (s : Settings) (path : Text) (first last : Int)
    (content : Except ReadFault (List UInt8)) : Text :=
  match decodeSource path content with
  | .error e => e.userMessage
  | .ok t =>
    let renderer : Renderer Unit :=
      ⟨.ofGrammar (s.grammarFor path) s.policy, .ofInt s.literalLimit⟩
    (renderer.render t first last).1

def renderFile (s : Settings) (root : Entry) (path : Text) (first last : Int) : Text :=
  s.renderRead path first last (root.read path s.maxFileBytes)

end Settings
end SourceWindow
