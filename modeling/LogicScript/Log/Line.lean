import LogicScript.Log
import LogicScript.Text.Quoted

/-! Log entries as lines of text. -/
namespace LogicScript
namespace Log

def escapeJson (c : Char) : List Char :=
  if c = '"' || c = '\\' then ['\\', c]
  else if c = '\n' then ['\\', 'n']
  else if c = '\r' then ['\\', 'r']
  else if c = '\t' then ['\\', 't']
  else if c.toNat < 0x20 then '\\' :: 'u' :: Text.hex 4 c.toNat
  else [c]

/-- A text between double quotes as JSON has it. -/
def quoteJson (s : String) : String :=
  String.ofList ('"' :: s.toList.flatMap escapeJson ++ ['"'])

def Item.json : Item → String
  | .text value => quoteJson value
  | .count value => toString value
  | .flag value => if value then "true" else "false"

def object (fields : List (String × Item)) : String :=
  let members := fields.map fun (key, item) => quoteJson key ++ ":" ++ item.json
  "\x7b" ++ ",".intercalate members ++ "\x7d"

def Entry.line (e : Entry) (format : Format) : String :=
  match format with
  | .json =>
    object (("level", .text (format.level e.level)) :: ("msg", .text e.message) :: e.fields)
  | .console => format.level e.level ++ "\t" ++ e.message ++ "\t" ++ object e.fields

end Log
end LogicScript
