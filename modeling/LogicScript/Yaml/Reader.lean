import LogicScript.Yaml.Datum
import LogicScript.Yaml.Node.OfTokens
import LogicScript.Yaml.Token.Lexer

/-! Reading YAML texts. -/
namespace LogicScript
namespace Yaml

/-- The datum of the first document of a text: `none` if the text is invalid, and `some none` if it
has no document. In the given number of levels all keys of mappings are names. -/
def read (names : Nat) (text : String) : Option (Option Datum) := do
  match ← Node.ofTokens? (tokens text) with
  | none => return none
  | some node =>
    let (d, _) ← (do visit false; node.datum names false : Describing Datum).run {}
    return some d

mutual

/-- The document that a datum is without the texts of its scalars. -/
def Datum.document : Datum → Document
  | .scalar value _ => value
  | .list items => .list (documents items)
  | .mapping entries => .mapping (entryDocuments entries)
  | .table entries => .table (rowDocuments entries)

def documents : List Datum → List Document
  | [] => []
  | d :: rest => d.document :: documents rest

def entryDocuments : List (String × Datum) → List (String × Document)
  | [] => []
  | (name, d) :: rest => (name, d.document) :: entryDocuments rest

def rowDocuments : List (Document × Datum) → List (Document × Document)
  | [] => []
  | (key, d) :: rest => (key, d.document) :: rowDocuments rest

end

end Yaml

/-- The entries of the mapping that a YAML text describes: `none` if it describes something else,
and `some none` if it describes nothing. -/
def Document.ofYaml? (text : String) : Option (Option (List (String × Document))) :=
  match Yaml.read 1 text with
  | some none | some (some (.scalar .null _)) => some none
  | some (some (.mapping entries)) => some (some (Yaml.entryDocuments entries))
  | _ => none

end LogicScript
