import LogicScript.Document
import LogicScript.Tree.Kind

/-! Why a document is not the tree of a program. -/
namespace LogicScript

/-- What may stand in a place of the tree. -/
inductive Category
  | expression | statement | block | logic | predicateCall | reference | type
  deriving DecidableEq, Repr

def Category.text : Category → String
  | .expression => "an expression"
  | .statement => "a statement"
  | .block => "a Block"
  | .logic => "a logic expression"
  | .predicateCall => "a PredicateCall"
  | .reference => "a Reference"
  | .type => "a type"

/-- The lists whose entries have to be mappings. -/
inductive EntryList
  | statements | expressions | parameters | fields
  deriving DecidableEq, Repr

def EntryList.text : EntryList → String
  | .statements => "statement entry"
  | .expressions => "expression entry"
  | .parameters => "parameter"
  | .fields => "struct field"

inductive DecodeError
  | wrongRoot (found : NodeKind)
  | missingType
  | unknownType (type : String)
  | unknownOperator (family : String) (operator : String)
  | missingChild (owner : String) (key : String)
  | wrongChild (owner : String) (key : String) (found : NodeKind) (wanted : Category)
  | badEntry (entries : EntryList) (type : String)
  | wrongEntry (found : NodeKind) (wanted : Category)
  | wrongParameter (found : NodeKind)
  | fractional (key : String) (value : Binary64)
  | overflow (key : String) (value : UInt64)
  | notInteger (key : String) (type : String)
  | notNumber (key : String) (type : String)
  | badNumber (error : NumberError)
  deriving Repr

def DecodeError.message : DecodeError → String
  | .wrongRoot found => "document root is " ++ found.name ++ ", want Root"
  | .missingType => "node missing type discriminator"
  | .unknownType type => "unsupported node type " ++ Text.quote type
  | .unknownOperator family operator =>
    "unsupported " ++ family ++ " operator " ++ Text.quote operator
  | .missingChild owner key => owner ++ ": missing or invalid " ++ Text.quote key
  | .wrongChild owner key found wanted =>
    owner ++ ": " ++ Text.quote key ++ " is " ++ found.name ++ ", not " ++ wanted.text
  | .badEntry entries type => "invalid " ++ entries.text ++ " " ++ type
  | .wrongEntry found wanted => found.name ++ " is not " ++ wanted.text
  | .wrongParameter found => "invalid parameter " ++ found.name
  | .fractional key value =>
    Text.quote key ++ " value " ++ FloatFormat.message.write value ++ " is not an integer"
  | .overflow key value => Text.quote key ++ " value " ++ toString value ++ " overflows Int"
  | .notInteger key type => Text.quote key ++ " must be an integer, got " ++ type
  | .notNumber key type => Text.quote key ++ " must be a number, got " ++ type
  | .badNumber error => error.message

end LogicScript
