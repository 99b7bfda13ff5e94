import LogicScript.CommandLine.UsageError

/-! Reading the flags among the arguments of a command. -/
namespace LogicScript
namespace CommandLine

structure Options where
  verbose : Bool := false
  config : String := ""
  printResult : Bool := false
  noDescriptions : Bool := false
  help : Bool := false
  deriving DecidableEq, Repr

def readSwitch? (s : String) : Option Bool :=
  if ["1", "t", "T", "TRUE", "true", "True"].contains s then some true
  else if ["0", "f", "F", "FALSE", "false", "False"].contains s then some false
  else none

namespace Options

def setSwitch (o : Options) (flag : Flag) (on : Bool) : Options :=
  match flag with
  | .verbose => { o with verbose := on }
  | .printResult => { o with printResult := on }
  | .noDescriptions => { o with noDescriptions := on }
  | .help => { o with help := on }
  | .config => o

def set (o : Options) (flag : Flag) (value : String) : Except UsageError Options :=
  if flag.needsValue then .ok { o with config := value }
  else
    match readSwitch? value with
    | some on => .ok (o.setSwitch flag on)
    | none => .error (.badValue flag value)

end Options

def switchedOn : String := "true"

/-- Letters behind a dash: each switches a flag on, but the first that needs a value takes the
other letters as its value. The result is the flag that needs a value and has none, if there is
one. Letters that begin the name of a setting for test runs are left alone. -/
def readLetters (known : List Flag) : List Char → Options →
    Except UsageError (Options × Option Flag)
  | [], o => .ok (o, none)
  | c :: cs, o =>
    if "test.".toList.isPrefixOf (c :: cs) then .ok (o, none)
    else
      match known.find? (·.letter? = some c), cs with
      | none, _ => .error (.unknownLetter (c :: cs))
      | some flag, '=' :: v :: vs => do return (← o.set flag (String.ofList (v :: vs)), none)
      | some flag, cs =>
        if !flag.needsValue then do readLetters known cs (← o.set flag switchedOn)
        else if cs.isEmpty then .ok (o, some flag)
        else do return (← o.set flag (String.ofList cs), none)

inductive Form
  | word
  | stop
  | name (text : List Char)
  | letters (cs : List Char)
  deriving DecidableEq, Repr

def Form.of (argument : String) : Form :=
  match argument.toList with
  | ['-', '-'] => .stop
  | '-' :: '-' :: text => .name text
  | '-' :: c :: cs => .letters (c :: cs)
  | _ => .word

/-- Reads the arguments of a command from left to right. Flags may stand anywhere in front of two
dashes; the other arguments are kept in reverse. -/
def readArguments (known : List Flag) :
    List String → Options → List String → Except UsageError (Options × List String)
  | [], o, words => .ok (o, words.reverse)
  | argument :: rest, o, words =>
    match Form.of argument with
    | .word => readArguments known rest o (argument :: words)
    | .stop => .ok (o, words.reverse ++ rest)
    | .name text =>
      let name := String.ofList (text.takeWhile (· ≠ '='))
      if text.head? = some '-' || text.head? = some '=' then .error (.badFlag argument)
      else
        match known.find? (·.name = name), text.dropWhile (· ≠ '=') with
        | none, _ => .error (.unknownFlag name)
        | some flag, _ :: value => do
          readArguments known rest (← o.set flag (String.ofList value)) words
        | some flag, [] =>
          if !flag.needsValue then do
            readArguments known rest (← o.set flag switchedOn) words
          else
            match rest with
            | [] => .error (.noValue name)
            | value :: rest => do readArguments known rest (← o.set flag value) words
    | .letters cs =>
      match readLetters known cs o with
      | .error e => .error e
      | .ok (o, none) => readArguments known rest o words
      | .ok (o, some flag) =>
        match rest with
        | [] => .error (.noLetterValue flag)
        | value :: rest => do readArguments known rest (← o.set flag value) words

end CommandLine
end LogicScript
