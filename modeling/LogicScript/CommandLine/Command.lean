import LogicScript.CommandLine.Options
import LogicScript.Text.Lowercase

/-! Finding the command in a command line. -/
namespace LogicScript
namespace CommandLine

inductive Shell
  | bash | zsh | fish | powershell
  deriving DecidableEq, Repr

namespace Shell

def all : List Shell := [.bash, .zsh, .fish, .powershell]

def name : Shell → String
  | .bash => "bash"
  | .zsh => "zsh"
  | .fish => "fish"
  | .powershell => "powershell"

def ofName? (s : String) : Option Shell := all.find? (·.name = s)

theorem ofName?_name (c : Shell) : ofName? c.name = some c := by
  cases c <;> decide

end Shell

/-- The commands. Those for completion scripts stand below a command of their own. -/
inductive Command
  | run | check | facts | version | help | completion
  | script (shell : Shell)
  deriving DecidableEq, Repr

def programName : String := "sigh"

namespace Command

/-- The commands that are called by one word. -/
def all : List Command := [.run, .check, .facts, .version, .help, .completion]

def name : Command → String
  | .run => "run"
  | .check => "check"
  | .facts => "facts"
  | .version => "version"
  | .help => "help"
  | .completion => "completion"
  | .script shell => "completion " ++ shell.name

def ofName? (s : String) : Option Command := all.find? (·.name = s)

theorem ofName?_name {c : Command} (h : c ∈ all) : ofName? c.name = some c := by
  simp only [all, List.mem_cons, List.not_mem_nil, or_false] at h
  rcases h with rfl | rfl | rfl | rfl | rfl | rfl <;> decide

def sharedFlags : List Flag := [.verbose, .config]

def flags : Command → List Flag
  | .run => sharedFlags ++ [.printResult, .help]
  | .script _ => sharedFlags ++ [.noDescriptions, .help]
  | _ => sharedFlags ++ [.help]

end Command

/-- Whether at most that many insertions, deletions and replacements lead from one list to the
other. -/
def withinEdits (edits : Nat) (s t : List UInt8) : Bool :=
  match s, t with
  | [], t => t.length ≤ edits
  | s, [] => s.length ≤ edits
  | a :: s, b :: t =>
    if a = b then withinEdits edits s t
    else
      match edits with
      | 0 => false
      | edits + 1 =>
        withinEdits edits s (b :: t) || withinEdits edits (a :: s) t || withinEdits edits s t
termination_by s.length + t.length

/-- The commands that may have been meant: the name is nearly the same or begins as typed. -/
def suggestions (typed : String) : List String :=
  let typed := Text.lowercase typed
  (Command.all.filter fun c => c ≠ .help
    && (withinEdits 2 typed.toUTF8.toList c.name.toUTF8.toList
      || typed.toList.isPrefixOf c.name.toList)).map Command.name

def isDashed (argument : String) : Bool := argument.toList.head? == some '-'

/-- Whether the argument behind a flag is its value, as long as the command is not known: it is,
unless the flag is known as a switch or has its value behind an equals sign. -/
def takesNext (argument : String) : Bool :=
  let isSwitch (test : Flag → Bool) := Command.sharedFlags.any fun f => test f && !f.needsValue
  !argument.toList.contains '=' &&
    match Form.of argument with
    | .name text => !isSwitch (·.name = String.ofList text)
    | .letters [c] => c.toNat < 0x80 && !isSwitch (·.letter? = some c)
    | _ => false

/-- The arguments that are no flags and no values of flags. -/
def bareWords : List String → List String
  | [] => []
  | argument :: rest =>
    if argument = "--" then []
    else if takesNext argument then
      match rest with
      | [] | [_] => []
      | _ :: next :: rest => bareWords (next :: rest)
    else if argument = "" || isDashed argument then bareWords rest
    else argument :: bareWords rest

def withoutWord (word : String) : List String → List String
  | [] => []
  | argument :: rest =>
    if argument = "--" then argument :: rest
    else if takesNext argument then
      match rest with
      | [] => [argument]
      | value :: rest => argument :: value :: withoutWord word rest
    else if argument = word then rest
    else argument :: withoutWord word rest

/-- A command line: what to do, how, and with which arguments. -/
structure Invocation where
  command : Option Command
  options : Options
  arguments : List String
  deriving DecidableEq, Repr

def checkArguments (command : Command) (arguments : List String) : Except UsageError Unit :=
  match command, arguments with
  | .version, word :: _ | .script _, word :: _ =>
    .error (.unknownCommand word (programName ++ " " ++ command.name) [])
  | .run, _ :: _ :: _ | .check, _ :: _ :: _ | .facts, _ :: _ :: _ =>
    .error (.tooManyArguments 1 arguments.length)
  | _, _ => .ok ()

/-- The command that the first bare word names and the arguments without its name, or `none` if
there is no bare word. -/
def findCommand (args : List String) : Except UsageError (Option Command × List String) :=
  match bareWords args with
  | [] => .ok (none, args)
  | word :: _ =>
    let rest := withoutWord word args
    match Command.ofName? word with
    | none => .error (.unknownCommand word programName (suggestions word))
    | some .completion =>
      match (bareWords rest).head?.bind Shell.ofName? with
      | none => .ok (some .completion, rest)
      | some shell => .ok (some (.script shell), withoutWord shell.name rest)
    | some command => .ok (some command, rest)

/-- Reads a command line. Who asks for help gets it, whatever the other arguments are. -/
def Invocation.parse (args : List String) : Except UsageError Invocation := do
  let (command, rest) ← findCommand args
  let flags := (command.map Command.flags).getD (Command.sharedFlags ++ [.help])
  let (options, arguments) ← readArguments flags rest {} []
  if !options.help then
    if let some c := command then checkArguments c arguments
  return ⟨command, options, arguments⟩

end CommandLine
end LogicScript
