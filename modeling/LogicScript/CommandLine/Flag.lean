/-! The flags of the command line. -/
namespace LogicScript
namespace CommandLine

inductive Flag
  | verbose | config | printResult | noDescriptions | help
  deriving DecidableEq, Repr

namespace Flag

def name : Flag → String
  | .verbose => "verbose"
  | .config => "config"
  | .printResult => "print-result"
  | .noDescriptions => "no-descriptions"
  | .help => "help"

def letter? : Flag → Option Char
  | .verbose => some 'v'
  | .config => some 'c'
  | .printResult | .noDescriptions => none
  | .help => some 'h'

/-- A flag either needs a value or is a switch. -/
def needsValue : Flag → Bool
  | .config => true
  | _ => false

/-- The ways to write a flag. -/
def spelling (f : Flag) : String :=
  match f.letter? with
  | some c => "-" ++ String.singleton c ++ ", --" ++ f.name
  | none => "--" ++ f.name

end Flag

end CommandLine
end LogicScript
