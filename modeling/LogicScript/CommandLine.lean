import LogicScript.Analysis
import LogicScript.CommandLine.Command
import LogicScript.Datalog
import LogicScript.Manifest.File
import LogicScript.ProgramFile
import LogicScript.Run

/-! What the commands of the command line do. -/
namespace LogicScript
namespace CommandLine

/-- What a command line leaves behind: its output, its log, and the text of the failure that ended
it, if one did. -/
structure Transcript where
  output : String := ""
  format : Log.Format := .json
  log : List Log.Entry := []
  failure : Option String := none
  deriving Repr

def Transcript.code (t : Transcript) : Nat := if t.failure.isSome then 1 else 0

/-- The settings under which a command works. -/
structure Session where
  manifest : Manifest
  options : Options

namespace Session

def level (s : Session) : Log.Level := if s.options.verbose then .debug else s.manifest.level

def printsResult (s : Session) : Bool := s.options.printResult || s.manifest.printResult

/-- The first entry of the log names the manifest. -/
def opening (s : Session) : List Log.Entry :=
  if s.manifest.path = "" then []
  else [⟨.debug, "manifest loaded",
    [("path", .text s.manifest.path), ("name", .text s.manifest.name)]⟩]

/-- The transcript of a session with these entries in its log. -/
def transcript (s : Session) (entries : List Log.Entry) (output : String)
    (failure : Option String) : Transcript :=
  { output
    format := s.manifest.format.getD .json
    log := Log.kept s.level (s.opening ++ entries)
    failure }

def succeed (s : Session) (entries : List Log.Entry) (output : String) : Transcript :=
  s.transcript entries output none

def fail (s : Session) (message : String) : Transcript := s.transcript [] "" (some message)

/-- The program that a command works on: its argument, or else the entry of the manifest. -/
def programPath (s : Session) (arguments : List String) : Option String :=
  match arguments with
  | path :: _ => some path
  | [] => if s.manifest.entryPath = "" then none else some s.manifest.entryPath

end Session

/-- A program without issues, with its path and its attributes. -/
structure Checked where
  path : String
  program : Program
  table : Table

namespace Checked

def ofProgram (path : String) (program : Program) : Except String Checked :=
  let (table, issues) := analyze program
  if issues.isEmpty then .ok ⟨path, program, table⟩
  else .error (path ++ ": " ++ Issue.report issues)

def statements (c : Checked) : Nat := c.program.statements.length

def analyzed (c : Checked) : Log.Entry :=
  ⟨.debug, "program analyzed", [("path", .text c.path), ("statements", .count c.statements)]⟩

def running (c : Checked) : Log.Entry := ⟨.info, "running program", [("path", .text c.path)]⟩

/-- Runs the program and reports it; a run that ends as told has more to report. -/
def report (c : Checked) (s : Session) (fuel : Nat)
    (more : Run → Completion → String × List Log.Entry) : Transcript :=
  let run := c.program.run ⟨c.table, effectiveDepth s.manifest.maxDepth⟩ fuel
  let log := c.analyzed :: c.running :: run.machine.events.toList.map Log.Entry.ofEvent
  match run.outcome with
  | .error halt => s.transcript log run.machine.output (some halt.describe)
  | .ok done =>
    let (output, entries) := more run done
    s.succeed (log ++ entries) (run.machine.output ++ output)

end Checked

/-- The value of a program that returned one, if it is to be shown. -/
def resultText (s : Session) (run : Run) (done : Completion) : String :=
  if done.isReturn && s.printsResult then run.machine.display done.value ++ "\n" else ""

def factsText (run : Run) : String × List Log.Entry :=
  let store := (run.root.map fun root => (run.machine.frame root).predicates).getD {}
  let facts := Datalog.Export.ofStore store
  let skipped :=
    if facts.skipped = 0 then ""
    else "% skipped " ++ toString facts.skipped ++ " facts with no Datalog form\n"
  (String.join (facts.lines.map (· ++ "\n")) ++ skipped,
    [⟨.debug, "facts exported",
      [("exported", .count facts.exported), ("skipped", .count facts.skipped)]⟩])

inductive Task
  | run | check | facts
  deriving DecidableEq, Repr

def Task.perform (task : Task) (s : Session) (c : Checked) (fuel : Nat) : Transcript :=
  match task with
  | .check =>
    s.succeed [c.analyzed]
      ("ok: " ++ c.path ++ " (" ++ toString c.statements ++ " statements)\n")
  | .run => c.report s fuel fun run done => (resultText s run done, [])
  | .facts => c.report s fuel fun run _ => factsText run

def versionText : String := programName ++ " 0.1.0-dev\n"

def helpText : String :=
  "Usage:\n  " ++ programName ++ " [command] [flags]\n\nCommands:\n"
    ++ "  run [file]     Run a program\n"
    ++ "  check [file]   Load and analyze a program without running it\n"
    ++ "  facts [file]   Run a program and print its root facts as Datalog\n"
    ++ "  version        Print the version\n\nFlags:\n"
    ++ "  -c, --config string   Path to " ++ Manifest.fileName ++ "\n"
    ++ "  -v, --verbose         Enable debug logging\n"
    ++ "      --print-result    Print the value of a top-level return\n"

variable {m : Type → Type} [Monad m]

/-- The manifest of a command line: the one that is named, the nearest one, or the settings that
hold without any. -/
def findManifest (files : FileSystem m) (options : Options) :
    m (Except ManifestError Manifest) := do
  if options.config ≠ "" then Manifest.load files options.config
  else
    match ← Manifest.find files files.workingDirectory with
    | .error e => return .error e
    | .ok none => return .ok {}
    | .ok (some path) => Manifest.load files path

def Task.performOn (task : Task) (files : FileSystem m) (fuel : Nat) (s : Session)
    (arguments : List String) : m Transcript := do
  match s.programPath arguments with
  | none => return s.fail "no program given and the manifest has no entry"
  | some path =>
    match ← Program.load files path with
    | .error e => return s.fail e.message
    | .ok program =>
      match Checked.ofProgram path program with
      | .error message => return s.fail message
      | .ok c => return task.perform s c fuel

/-- Carries out a command line. Completion scripts are left empty. -/
def execute (files : FileSystem m) (fuel : Nat) (args : List String) : m Transcript := do
  match Invocation.parse args with
  | .error e => return { failure := some e.message }
  | .ok invocation =>
    let perform (action : Session → m Transcript) : m Transcript := do
      match ← findManifest files invocation.options with
      | .error e => return { failure := some e.message }
      | .ok manifest => action ⟨manifest, invocation.options⟩
    let task (t : Task) := perform fun s => t.performOn files fuel s invocation.arguments
    if invocation.options.help then return { output := helpText }
    match invocation.command with
    | some .run => task .run
    | some .check => task .check
    | some .facts => task .facts
    | some .version => perform fun s => return s.succeed [] versionText
    | some .help => perform fun s => return s.succeed [] helpText
    | some (.script _) => perform fun s => return s.succeed [] ""
    | some .completion | none => return { output := helpText }

end CommandLine
end LogicScript
