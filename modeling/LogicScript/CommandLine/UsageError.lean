import LogicScript.CommandLine.Flag
import LogicScript.Text.Quoted

/-! What can be wrong with the arguments of a command line. -/
namespace LogicScript
namespace CommandLine

inductive UsageError
  | unknownCommand (name path : String) (suggestions : List String)
  | unknownFlag (name : String)
  | badFlag (argument : String)
  | noValue (name : String)
  | noLetterValue (flag : Flag)
  | unknownLetter (letters : List Char)
  | badValue (flag : Flag) (value : String)
  | tooManyArguments (limit received : Nat)
  deriving DecidableEq, Repr

def leadByte (c : Char) : Char :=
  let n := c.toNat
  if n < 0x80 then c
  else if n < 0x800 then Char.ofNat (0xc0 + n / 0x40)
  else if n < 0x10000 then Char.ofNat (0xe0 + n / 0x1000)
  else Char.ofNat (0xf0 + n / 0x40000)

def quoteLetter (c : Char) : String :=
  let inner :=
    if c = '\x27' then ['\\', '\x27'] else if c = '"' then ['"'] else Text.escape c
  String.ofList ('\x27' :: inner ++ ['\x27'])

/-- The suggestions below the name of a command that does not exist. -/
def suggestionText (suggestions : List String) : String :=
  if suggestions.isEmpty then ""
  else "\n\nDid you mean this?\n" ++ String.join (suggestions.map fun s => "\t" ++ s ++ "\n")

def UsageError.message : UsageError → String
  | .unknownCommand name path suggestions =>
    "unknown command " ++ Text.quote name ++ " for " ++ Text.quote path
      ++ suggestionText suggestions
  | .unknownFlag name => "unknown flag: --" ++ name
  | .badFlag argument => "bad flag syntax: " ++ argument
  | .noValue name => "flag needs an argument: --" ++ name
  | .noLetterValue flag =>
    let letter := flag.letter?.getD '-'
    "flag needs an argument: " ++ quoteLetter letter ++ " in -" ++ String.singleton letter
  | .unknownLetter letters =>
    "unknown shorthand flag: " ++ quoteLetter (leadByte (letters.headD '-')) ++ " in -"
      ++ String.ofList letters
  | .badValue flag value =>
    "invalid argument " ++ Text.quote value ++ " for " ++ Text.quote flag.spelling
      ++ " flag: strconv.ParseBool: parsing " ++ Text.quote value ++ ": invalid syntax"
  | .tooManyArguments limit received =>
    "accepts at most " ++ toString limit ++ " arg(s), received " ++ toString received

end CommandLine
end LogicScript
