import LogicScript.CommandLine
import LogicScript.Log.Line

/-! The program: the command line on the files of the machine. -/
namespace LogicScript

def reasonOf : IO.Error → String
  | .noFileOrDirectory .. => absentReason
  | .inappropriateType .. => "not a directory"
  | .permissionDenied .. => "permission denied"
  | e => e.toString

/-- Opens a file and reads it. A directory can be opened and not read. -/
def readContents (path : String) : IO Contents := do
  if path = "" then return .unopened absentReason
  let file ← (IO.FS.Handle.mk path .read).toBaseIO
  match file with
  | .error e => return .unopened (reasonOf e)
  | .ok file =>
    match ← file.readToEnd.toBaseIO with
    | .ok text => return .text text
    | .error _ => return .directory

def statusOf (path : String) : IO Status := do
  match ← readContents path with
  | .text _ => return .file
  | .directory => return .directory
  | .unopened reason => return if reason = absentReason then .absent else .failed reason

def machineFiles : IO (FileSystem IO) := do
  return { workingDirectory := toString (← IO.currentDir), stat := statusOf, read := readContents }

/-- The steps that a run may take. -/
def runFuel : Nat := 1000000000000000

end LogicScript

open LogicScript in
def main (args : List String) : IO UInt32 := do
  let transcript ← CommandLine.execute (← machineFiles) runFuel args
  IO.print transcript.output
  for entry in transcript.log do
    IO.eprintln (entry.line transcript.format)
  if let some failure := transcript.failure then
    IO.eprintln failure
  return transcript.code.toUInt32
