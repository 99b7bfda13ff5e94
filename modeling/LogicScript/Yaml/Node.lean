import LogicScript.Yaml.Scalar

/-! The nodes of a YAML text. -/
namespace LogicScript
namespace Yaml

/-- A node. An alias carries the node it stands for; an alias inside of that node is a loop. -/
inductive Node
  | scalar (form : ScalarForm) (text : String)
  | sequence (items : List Node)
  | mapping (entries : List (Node × Node))
  | alias (name : String) (target : Node)
  | loop (name : String)
  deriving Repr, Inhabited

/-- What makes two keys of a mapping the same. -/
inductive KeyMark
  | scalar (text : String)
  | sequence
  | mapping
  | alias (name : String)
  deriving DecidableEq, Repr

namespace Node

def missing : Node := .scalar .plain ""

/-- Scalars are told apart by their texts, whatever they stand for, aliases by their names, and
other keys by their shape only. -/
def keyMark : Node → KeyMark
  | .scalar _ text => .scalar text
  | .sequence _ => .sequence
  | .mapping _ => .mapping
  | .alias name _ => .alias name
  | .loop name => .alias name

def isMerge : Node → Bool
  | .scalar form text => form.isMerge text
  | _ => false

def isName : Node → Bool
  | .scalar form text => form.isName text
  | .alias _ target => target.isName
  | _ => false

end Node

def distinctKeys (entries : List (Node × Node)) : Bool :=
  (entries.map (·.1.keyMark)).Nodup

end Yaml
end LogicScript
