import SourceWindow.CommandLine

set_option autoImplicit false

namespace SourceWindow.Main

def readFault : IO.Error → ReadFault
  | .noFileOrDirectory .. => .missing
  | e => .other (Text.ofString (toString e))

def readFile (path : Text) (limit : Option Nat) : IO (Except ReadFault (List UInt8)) := do
  if path.contains '\x00' then return .error .nulInPath
  try
    let content ← IO.FS.readBinFile (String.ofList path)
    match limit with
    | some limit =>
      if limit < content.size then return .error (.tooLarge content.size limit)
    | none => pure ()
    return .ok content.toList
  catch e => return .error (readFault e)

def environment : IO Assignments.Environment := do
  let names := [Settings.literalLimitVariable, Settings.grammarVariable,
    Settings.maxFileBytesVariable]
  let values ← names.mapM fun name => do
    return (← IO.getEnv (String.ofList name)).map fun value => (name, value.toList)
  return values.filterMap id

end SourceWindow.Main

open SourceWindow in
def main (arguments : List String) : IO UInt32 := do
  let env ← Main.environment
  let env := match ← Main.readFile Assignments.fileName none with
    | .ok content => Assignments.load env content
    | .error _ => env
  let outcome ← match CommandLine.plan (arguments.map String.toList) env with
    | .error outcome => pure outcome
    | .ok job => pure (job.outcome (← Main.readFile job.path job.settings.maxFileBytes))
  (← IO.getStdout).putStr (String.ofList outcome.output)
  (← IO.getStderr).putStr (String.ofList outcome.errors)
  return outcome.code.toUInt32
