import Std.Time.DateTime
import Millwork.CommandLine
import Millwork.Report.Moment
/-!
# The program

Carries a command line out: reads the standard input if it is needed and the directory of the rules,
writes the answer, and ends with its exit code.
-/
open Millwork CommandLine

def reasonOf : IO.Error → String
  | .permissionDenied _ code details | .resourceExhausted _ code details
  | .hardwareFault code details | .otherError code details =>
    details ++ " (os error " ++ toString code ++ ")"
  | e => toString e

def listFolder (path : String) : IO (Except String Folder) := do
  if path.isEmpty then
    return .ok []
  let directory ←
    try
      IO.FS.realPath path
    catch _ =>
      return .ok []
  if !(← directory.isDir) then
    return .ok []
  try
    let mut folder : Folder := []
    for entry in ← directory.readDir do
      try
        match (← entry.path.metadata).type with
        | .dir => folder := (entry.fileName, .folder []) :: folder
        | .file => folder := (entry.fileName, .file (← IO.FS.readBinFile entry.path)) :: folder
        | _ => pure ()
      catch _ =>
        pure ()
    return .ok folder.reverse
  catch e =>
    return .error (reasonOf e)

def main (arguments : List String) : IO UInt32 := do
  let start ← IO.monoNanosNow
  let rulesVariable ← IO.getEnv rulesVariableName
  let mut standardInput := ByteArray.empty
  let mut listing : Except String Folder := .ok []
  match read arguments with
  | .ok (.process settings) =>
    if settings.input.isNone then
      standardInput ← (← IO.getStdin).readBinToEnd
    listing ← listFolder (settings.rulesPath rulesVariable)
  | _ => pure ()
  let now ← Std.Time.Timestamp.now
  let loaded := Moment.timeText now.toSecondsSinceUnixEpoch.val.toNat
  let total := Moment.durationText ((← IO.monoNanosNow) - start)
  let found := listing
  let output := run arguments {
    standardInput, rulesVariable
    listing := fun _ => found
    times := ⟨loaded, total, total⟩ }
  IO.print output.stdout
  IO.eprint output.stderr
  return UInt32.ofNat output.exitCode
