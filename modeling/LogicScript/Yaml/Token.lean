/-! The tokens of a YAML text. -/
namespace LogicScript
namespace Yaml

/-- A token. The beginnings and ends of block collections have no characters of their own: they
follow from the columns that lines begin in. -/
inductive Token
  | streamEnd
  | versionDirective (major minor : Nat)
  | tagDirective (handle start : String)
  | documentStart
  | documentEnd
  | blockSequenceStart
  | blockMappingStart
  | blockEnd
  | flowSequenceStart
  | flowSequenceEnd
  | flowMappingStart
  | flowMappingEnd
  | blockEntry
  | flowEntry
  | key
  | value
  | anchor (name : String)
  | alias (name : String)
  | tag (handle suffix : String)
  /-- A scalar; one without quotes that is no block may stand for something else than its text. -/
  | scalar (plain : Bool) (text : String)
  deriving DecidableEq, Repr, Inhabited

end Yaml
end LogicScript
